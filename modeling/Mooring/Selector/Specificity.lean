import Mooring.Selector.Shape

/-!
# How durable a selector is

A selector's strategy is told from its notation and valued in hundredths: selectors by test
attribute are worth most, bare tags least.
-/

namespace Mooring.Selector

open Mooring.Text

/-- Notations that give away a test attribute. -/
def testIdMarkers : List String :=
  ["data-testid", "data-test-id", "data-test=", "data-cy", "data-qa"]

/-- The selector without its parts in brackets, each from a bracket to the next closing one. -/
def withoutBrackets : List Char → List Char
  | [] => []
  | c :: rest =>
    if c == '[' then
      match _h : afterFirst? (· == ']') rest with
      | some after => withoutBrackets after
      | none => c :: withoutBrackets rest
    else c :: withoutBrackets rest
termination_by cs => cs.length
decreasing_by
  · have := length_lt_of_afterFirst? _h
    simp only [List.length_cons]
    omega
  · simp
  · simp

/-- The value of a text selector: very short texts are worth little, quoted ones of a good length
most. -/
def textSpecificity (selector : List Char) : Nat :=
  let isQuote (c : Char) : Bool := c == '"' || c == '\''
  let length := (trim ((selector.drop 5).filter (!isQuote ·))).length
  let quoted := selector.any isQuote
  if length ≤ 2 then 40
  else if quoted && 5 ≤ length && length ≤ 24 then 60
  else if quoted then 55
  else 50

/-- The durability of a selector's strategy, in hundredths. -/
def specificity (selector : String) : Nat :=
  let cs := selector.toList
  if testIdMarkers.any fun marker => occursIn marker.toList cs then 100
  else if startsWith ("role:").toList cs then
    if occursIn ("[name=").toList cs then 90 else 70
  else if startsWith ['#'] cs || (firstMarked? '#' (withoutBrackets cs)).isSome then 60
  else if startsWith ("text:").toList cs then textSpecificity cs
  else if cs.contains '[' then 50
  else if startsWith ['.'] cs then 30
  else 20

end Mooring.Selector
