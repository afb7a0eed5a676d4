import Mooring.Text.Blank

/-!
# Compound selectors

A selector is a chain of compound selectors with combinators between them, and the last compound
describes the element itself.  Spaces and combinators inside brackets, parentheses and quotes
separate nothing.
-/

namespace Mooring.Selector

open Mooring.Text

/-- Separates two compounds. -/
def isCombinator (c : Char) : Bool :=
  c == ' ' || c == '>' || c == '+' || c == '~'

/-- Where the scan for combinators stands: how many brackets and parentheses are open, and the
quote of the quoted text it is in. -/
structure Nesting where
  depth : Int := 0
  quote : Option Char := none
  deriving Repr, DecidableEq

/-- The nesting after a character. -/
def Nesting.after (n : Nesting) (c : Char) : Nesting :=
  match n.quote with
  | some quote => if c == quote then { n with quote := none } else n
  | none =>
    if c == '"' || c == '\'' then { n with quote := some c }
    else if c == '[' || c == '(' then { n with depth := n.depth + 1 }
    else if c == ']' || c == ')' then { n with depth := n.depth - 1 }
    else n

/-- The character is a combinator of the chain. -/
def Nesting.separates (n : Nesting) (c : Char) : Bool :=
  n.quote.isNone && n.depth == 0 && isCombinator c

/-- What stands after the last combinator of the chain; `current` is what stands between the last
combinator so far and here, reversed. -/
def lastFrom (n : Nesting) (current : List Char) : List Char → List Char
  | [] => current.reverse
  | c :: rest =>
    if n.separates c then lastFrom n [] rest else lastFrom (n.after c) (c :: current) rest

/-- The last compound of a selector, without blanks around it. -/
def lastCompound (selector : List Char) : List Char :=
  trim (lastFrom {} [] selector)

end Mooring.Selector
