import Mooring.Decimal.Scalar
import Mooring.Settings.Budgets

/-!
# Weights of the stability score

Four weights blend the parts of the stability score.  Only their proportions matter: `normalized`
scales them to sum to one, and weights that sum to nothing become the defaults.
-/

namespace Mooring.Settings

open Mooring.Decimal

/-- A part of the stability score. -/
inductive Aspect
  | hintQuality
  | snippetMatch
  | liveness
  | specificity
  deriving Repr, DecidableEq

namespace Aspect

/-- Every part, in the order in which they are summed and shown. -/
def all : List Aspect :=
  [hintQuality, snippetMatch, liveness, specificity]

/-- The name under which the part is reported. -/
def name : Aspect → String
  | hintQuality => "hint_quality"
  | snippetMatch => "snippet_match"
  | liveness => "liveness"
  | specificity => "specificity"

/-- The environment variable that sets the part's weight. -/
def environmentName : Aspect → String
  | hintQuality => "ANCHORS_STABILITY_HINT_WEIGHT"
  | snippetMatch => "ANCHORS_STABILITY_SNIPPET_WEIGHT"
  | liveness => "ANCHORS_STABILITY_LIVENESS_WEIGHT"
  | specificity => "ANCHORS_STABILITY_SPECIFICITY_WEIGHT"

/-- The part's default weight, in tenths. -/
def fallbackTenths : Aspect → Nat
  | hintQuality => 4
  | snippetMatch => 2
  | liveness => 3
  | specificity => 1

/-- The default weight as messages show it. -/
def fallbackText (aspect : Aspect) : String :=
  "0." ++ toString aspect.fallbackTenths

end Aspect

/-- A value for each part of the stability score. -/
structure Blend (α : Type) where
  hintQuality : α
  snippetMatch : α
  liveness : α
  specificity : α

namespace Blend

variable {α : Type}

/-- The value of a part. -/
def get (b : Blend α) : Aspect → α
  | .hintQuality => b.hintQuality
  | .snippetMatch => b.snippetMatch
  | .liveness => b.liveness
  | .specificity => b.specificity

/-- The values that a function gives to the parts. -/
def ofFn (f : Aspect → α) : Blend α :=
  ⟨f .hintQuality, f .snippetMatch, f .liveness, f .specificity⟩

variable [Scalar α]

/-- The default weights. -/
def defaultWeights : Blend α :=
  ofFn fun aspect => Scalar.hundredths (10 * aspect.fallbackTenths)

/-- The sum of the values, from the first part to the last. -/
def total (b : Blend α) : α :=
  b.hintQuality + b.snippetMatch + b.liveness + b.specificity

/-- Weights in the same proportions that sum to one; the defaults if these do not sum to more than
zero. -/
def normalized (weights : Blend α) : Blend α :=
  let total := weights.total
  if Scalar.atMost total Scalar.zero then defaultWeights
  else ofFn fun aspect => weights.get aspect / total

/-- The sum of the values, each weighted, from the first part to the last. -/
def weightedSum (weights values : Blend α) : α :=
  values.hintQuality * weights.hintQuality + values.snippetMatch * weights.snippetMatch +
    values.liveness * weights.liveness + values.specificity * weights.specificity

end Blend

/-- The double is finite and not below zero. -/
def isWeight (x : Float) : Bool :=
  match Decimal.parts x with
  | .finite negative num _ => !negative || num == 0
  | _ => false

/-- A part's weight from the environment, and a warning if the default had to be used. -/
def Aspect.weightFrom {α : Type} [Scalar α] (aspect : Aspect) (env : Environment) :
    α × List Warning :=
  let fallback : α := (Blend.defaultWeights (α := α)).get aspect
  match env.setting? aspect.environmentName with
  | none => (fallback, [])
  | some raw =>
    match spelled? raw with
    | none => (fallback, [.notANumber aspect.environmentName raw aspect.fallbackText])
    | some x =>
      if isWeight x then (Scalar.ofFloat x, [])
      else (fallback, [.outOfRange aspect.environmentName raw "non-negative" aspect.fallbackText])

/-- The weights that the environment sets, normalized, and the warnings in the order of the
parts. -/
def loadWeights {α : Type} [Scalar α] (env : Environment) : Blend α × List Warning :=
  (Blend.normalized (.ofFn fun aspect => (aspect.weightFrom env).1),
    Aspect.all.flatMap fun aspect => (aspect.weightFrom (α := α) env).2)

end Mooring.Settings
