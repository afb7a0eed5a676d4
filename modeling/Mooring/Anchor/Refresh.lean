import Mooring.Anchor.Basic
import Mooring.Decimal.Scalar
import Mooring.Moment.Basic

/-!
# Refreshing an anchor

After a resolution the anchor takes over what was found: the selector, how certain it is, the time,
and, where the winning candidate carried them, the fragment's hash, the fragment and its lines.
Nothing else of the anchor changes, and its id never does.
-/

namespace Mooring.Anchor

open Mooring.Decimal Mooring.Record

/-- How certain a resolution is, as its maker gives it. -/
inductive Confidence
  | whole (n : Int)
  | float (x : Float)

/-- The confidence as a stability: rounded to four places and brought between 0 and 1.  What is no
number counts as certain. -/
def Confidence.stability : Confidence → Float
  | whole n => if 0 < n then 1 else 0
  | float x =>
    let rounded := Scalar.round 4 x
    let capped := if rounded < 1 then rounded else 1
    if 0 < capped then capped else 0

/-- What a resolution hands to the anchor. -/
structure Finding where
  selector : String
  confidence : Confidence
  hash : Option String := none
  /-- The lines, under `start` and `end`; nothing if there are none. -/
  range : Table Json := []
  snippet : Option String := none

/-- The newer text, unless it is missing or empty. -/
def newer (old new : Option String) : Option String :=
  match new with
  | some s => if s == "" then old else new
  | none => old

/-- The anchor after a resolution that found something at a moment; the problems of the lines if
they are no range. -/
def refresh (anchor : Anchor) (finding : Finding) (now : Moment) : Checked Anchor := do
  let range ←
    if finding.range.isEmpty then Except.ok anchor.range
    else (SourceRange.ofFields finding.range).map some
  return { anchor with
    selector := finding.selector
    stability := finding.confidence.stability
    updatedAt := now.text
    snippetHash := newer anchor.snippetHash finding.hash
    snippet := newer anchor.snippet finding.snippet
    range }

end Mooring.Anchor
