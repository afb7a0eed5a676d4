import Mooring.Decimal.Scalar
import Mooring.Fragment.Canonical

/-!
# Similarity of fragments

How alike two fragments are, from 0 to 1.  Four fifths of the score is the share of words they have
in common, counted with repetitions against the longer list of words; one fifth is the share of
positions at which their characters agree.  Both are taken on the canonical forms, so the layout of
a fragment never matters.

The counts are natural numbers; only the blend at the end is arithmetic in a number system.
-/

namespace Mooring.Fragment

open Mooring.Decimal Mooring.Text

/-- A character that separates the words of a fragment. -/
def separatesTokens (c : Char) : Bool :=
  isBlank c || c == ',' || c == ';' || c == '.' || c == '(' || c == ')' || c == '\x7b' ||
    c == '\x7d' || c == '[' || c == ']' || c == '<' || c == '>' || c == '\'' || c == '"' ||
    c == '=' || c == '/'

/-- A character that makes a word count: a lower-case ASCII letter, an ASCII digit or an
underscore. -/
def isTokenChar (c : Char) : Bool :=
  ('a' ≤ c && c ≤ 'z') || isAsciiDigit c || c == '_'

/-- The words of a text that count, lower-cased: at least two characters, one of them telling. -/
def tokens (text : List Char) : List (List Char) :=
  (runs separatesTokens (lower text)).filter fun token =>
    decide (1 < token.length) && token.any isTokenChar

/-- How many items two lists share, repetitions counted. -/
def sharedCount : List (List Char) → List (List Char) → Nat
  | [], _ => 0
  | t :: rest, others =>
    if others.contains t then sharedCount rest (others.erase t) + 1 else sharedCount rest others

/-- At how many positions two texts have the same character. -/
def agreement : List Char → List Char → Nat
  | a :: as, b :: bs => agreement as bs + (if a == b then 1 else 0)
  | _, _ => 0

/-- What two canonical forms have in common, in counts. -/
structure Overlap where
  /-- Positions with the same character. -/
  agreeing : Nat
  /-- Length of the longer text. -/
  positions : Nat
  /-- Words in common. -/
  shared : Nat
  /-- Number of words in the text that has more. -/
  words : Nat
  deriving Repr, DecidableEq

/-- Compares two canonical forms. -/
def Overlap.of (first second : List Char) : Overlap :=
  let tokens₁ := tokens first
  let tokens₂ := tokens second
  { agreeing := agreement first second
    positions := max first.length second.length
    shared := sharedCount tokens₁ tokens₂
    words := max tokens₁.length tokens₂.length }

/-- The score of an overlap, to six places. -/
def Overlap.score {α : Type} [Scalar α] (o : Overlap) : α :=
  let characters : α := Scalar.ratio o.agreeing o.positions
  let words : α := if o.words = 0 then Scalar.zero else Scalar.ratio o.shared o.words
  Scalar.round 6 (characters * Scalar.hundredths 20 + words * Scalar.hundredths 80)

/-- The similarity of two fragments: 1 for the same canonical form, 0 if just one of the two
canonical forms is empty, else the score of their overlap. -/
def similarity {α : Type} [Scalar α] (first second : String) : α :=
  let first := (canonical first).toList
  let second := (canonical second).toList
  if first = second then Scalar.one
  else if first.isEmpty || second.isEmpty then Scalar.zero
  else (Overlap.of first second).score

end Mooring.Fragment
