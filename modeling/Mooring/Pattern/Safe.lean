import Mooring.Pattern.Match
import Mooring.Pattern.Reader
import Mooring.Text.Find

/-!
# Patterns from strangers

A pattern that comes with a selector is not trusted.  Patterns that are long or that open five
groups in a row are refused before they are read, and a pattern that is refused or malformed is
looked for literally.  A refusal is a value like any other.
-/

namespace Mooring.Pattern

open Mooring.Text

/-- Longer patterns are refused. -/
def maxLength : Nat := 300

/-- So many opening parentheses without a closing one between them are refused. -/
def maxOpenings : Nat := 5

/-- Five opening parentheses come without a closing one between them, `count` of them so far. -/
def opensTooMany (count : Nat) : List Char → Bool
  | [] => false
  | c :: rest =>
    if c == '(' then maxOpenings ≤ count + 1 || opensTooMany (count + 1) rest
    else if c == ')' then opensTooMany 0 rest
    else opensTooMany count rest

/-- Why a pattern is not used as one. -/
inductive Refusal
  | tooLong (length : Nat)
  | nested
  | malformed (error : SyntaxError)
  deriving Repr, DecidableEq

/-- The reason in words. -/
def Refusal.message (pattern : String) : Refusal → String
  | tooLong length =>
    "Pattern too long (" ++ toString length ++ " > " ++ toString maxLength ++ ")"
  | nested => "Potentially dangerous nested groups detected"
  | malformed error => "Invalid regex syntax: " ++ error.message pattern.toList

/-- Why a pattern is refused before it is read, if it is. -/
def guard? (pattern : String) : Option Refusal :=
  if maxLength < pattern.length then some (.tooLong pattern.length)
  else if opensTooMany 0 pattern.toList then some .nested
  else none

/-- The pieces of a pattern, or why it is refused. -/
def compile (flags : Flags) (pattern : String) : Except Overload (Except Refusal (List Piece)) :=
  match guard? pattern with
  | some refusal => .ok (.error refusal)
  | none =>
    match read flags pattern.toList with
    | .ok pieces => .ok (.ok pieces)
    | .error (.malformed error) => .ok (.error (.malformed error))
    | .error (.overload overload) => .error overload

/-- What is reported of a match: what its first group captured, else the whole match. -/
def Found.reported (found : Found) : String :=
  String.ofList ((found.captures.lookup 1).getD found.whole)

/-- Looks for a text literally; `anyCase` ignores letter case.  An empty text is not found. -/
def findLiteral (needle text : String) (anyCase : Bool) : Option String :=
  let fold (s : String) : List Char := if anyCase then lower s.toList else s.toList
  if needle != "" && occursIn (fold needle) (fold text) then some needle else none

/-- Looks for a pattern in a text, or for a literal text if the pattern is refused; the literal text
is the pattern itself unless another is given. -/
def searchOrLiteral (pattern text : String) (literal : Option String := none)
    (flags : Flags := {}) : Except Overload (Option String) := do
  match ← compile flags pattern with
  | .ok pieces => return (search pieces text.toList).map Found.reported
  | .error _ => return findLiteral (literal.getD pattern) text flags.ignoreCase

/-- An expected text in slashes: the pattern between them, and whether letter case is ignored. -/
def delimited? (expected : String) : Option (String × Bool) :=
  let cs := expected.toList
  if 2 < cs.length && startsWith ['/'] cs then
    if endsWith ['/', 'i'] cs then
      some (String.ofList ((cs.drop 1).take (cs.length - 3)), true)
    else if endsWith ['/'] cs then
      some (String.ofList ((cs.drop 1).take (cs.length - 2)), false)
    else none
  else none

/-- A text is what is expected: it matches the pattern in slashes, or contains the text without
regard to letter case.  Nothing expected is always met. -/
def textMatches (expected text : String) : Except Overload Bool := do
  if expected == "" then return true
  match delimited? expected with
  | some (body, anyCase) =>
    let found ← searchOrLiteral body text (some body) { ignoreCase := anyCase }
    return found.isSome
  | none => return occursIn (lower (trim expected.toList)) (lower text.toList)

end Mooring.Pattern
