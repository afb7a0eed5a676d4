import Mooring.Decimal.Scalar
import Mooring.Selector.Specificity
import Mooring.Settings.Weights

/-!
# The stability of a selector

How likely a selector is to keep working, from 0 to 1: a weighted sum of four parts.  The quality of
the preferred strategy, whether the source fragment still is what it was, what the live page said,
and how durable the selector's own strategy is.  The score is a diagnosis; it never decides which
selector wins.
-/

namespace Mooring

open Mooring.Decimal Mooring.Settings

/-- A stability score with its parts and the account of how it came about. -/
structure Stability (α : Type) where
  overall : α
  parts : Blend α
  details : List String

namespace Stability

/-- The quality of the best preferred strategy, in hundredths. -/
def hintQuality (prefer : List String) : Nat :=
  match prefer.head? with
  | some "testid" => 100
  | some "role" => 80
  | some "text" => 50
  | _ => 30

/-- What the live page said, in hundredths; half where it said nothing definite. -/
def livenessHundredths : Option Bool → Nat
  | none => 50
  | some true => 100
  | some false => 0

/-- What is known when a selector is rated. -/
structure Evidence where
  selector : String
  /-- The preferred strategies, the best first. -/
  prefer : List String := []
  /-- Whether the fragment still has its hash, where that was looked at. -/
  snippetMatched : Option Bool := none
  /-- Whether the selector is alive, where the page said so. -/
  alive : Option Bool := none

variable {α : Type} [Scalar α]

/-- The parts of the score. -/
def Evidence.parts (e : Evidence) : Blend α :=
  { hintQuality := Scalar.hundredths (hintQuality e.prefer)
    snippetMatch := Scalar.hundredths (if e.snippetMatched = some true then 100 else 0)
    liveness := Scalar.hundredths (livenessHundredths e.alive)
    specificity := Scalar.hundredths (Selector.specificity e.selector) }

/-- Yes or no. -/
def yesNo (b : Bool) : String :=
  if b then "yes" else "no"

/-- One part of the account: its name, its share and its weight. -/
def partLine (name : String) (part weight : α) : String :=
  name ++ ": " ++ String.ofList (Scalar.percentText part) ++ " (weight " ++
    String.ofList (Scalar.twoPlaces weight) ++ ")"

/-- The account of a score. -/
def Evidence.details (e : Evidence) (parts weights : Blend α) : List String :=
  [partLine "Hint quality" parts.hintQuality weights.hintQuality] ++
    (if e.prefer.isEmpty then [] else ["  Strategy: " ++ String.intercalate " > " e.prefer]) ++
    [partLine "Snippet match" parts.snippetMatch weights.snippetMatch] ++
    (e.snippetMatched.toList.map fun b => "  Matched: " ++ yesNo b) ++
    [partLine "Liveness" parts.liveness weights.liveness] ++
    (e.alive.toList.map fun b => "  Alive: " ++ yesNo b) ++
    [partLine "Specificity" parts.specificity weights.specificity, "  Selector: " ++ e.selector]

/-- Rates a selector; the weights need not sum to one. -/
def rate (weights : Blend α) (e : Evidence) : Stability α :=
  let weights := weights.normalized
  let parts := e.parts
  { overall := Scalar.round 6 (weights.weightedSum parts)
    parts
    details := e.details parts weights }

/-- The score in whole percent. -/
def percent (s : Stability α) : Int :=
  Scalar.percent s.overall

end Stability

end Mooring
