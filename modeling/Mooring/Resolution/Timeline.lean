import Mooring.Resolution.Probe

/-!
# Runs in time

A run is a list of steps that follow each other.  A step takes a while; what was already recorded
while it is under way and what is recorded when it is done are both known beforehand, because
nothing outside changes a run.  A deadline therefore does not interfere with a run: it only decides
how much of it is seen.
-/

namespace Mooring.Resolution

/-- A question that the page got to hear. -/
structure ProbeCall where
  selector : String
  timeout : Float

/-- A source that was indexed: its length, and the number of lines before it. -/
structure IndexCall where
  length : Nat
  lineOffset : Int
  deriving Repr, DecidableEq

/-- What is recorded of a run. -/
structure Trace (α : Type) where
  /-- How long each finished stage took. -/
  durations : Table Rat := []
  reasons : List String := []
  candidates : List (Candidate α) := []
  probed : List ProbeCall := []
  indexed : List IndexCall := []

namespace Trace

variable {α : Type}

/-- The account of a stage. -/
def note (stage message : String) (t : Trace α) : Trace α :=
  { t with reasons := t.reasons ++ [stage ++ ": " ++ message] }

/-- How long a stage took. -/
def took (stage : String) (cost : Rat) (t : Trace α) : Trace α :=
  { t with durations := Table.put stage cost t.durations }

end Trace

/-- A step of a run. -/
structure Step (α : Type) where
  /-- What is recorded while the step is under way. -/
  during : Trace α
  cost : Rat
  /-- What is recorded once it is done. -/
  done : Trace α
  /-- The stage whose time is recorded even if the step is cut off. -/
  alwaysTimed : Option String := none

/-- The record if the step is cut off after some time. -/
def Step.cutAfter {α : Type} (step : Step α) (time : Rat) : Trace α :=
  match step.alwaysTimed with
  | some stage => step.during.took stage time
  | none => step.during

/-- How long some steps take. -/
def totalCost {α : Type} : List (Step α) → Rat
  | [] => 0
  | step :: rest => step.cost + totalCost rest

/-- The record at a deadline that comes before the steps are done; `left` is the time until then. -/
def cutOff? {α : Type} (left : Rat) : List (Step α) → Option (Trace α)
  | [] => none
  | step :: rest =>
    if left < step.cost then some (step.cutAfter left) else cutOff? (left - step.cost) rest

/-- How a resolution ended. -/
structure Outcome (α : Type) where
  /-- The live candidate that was chosen. -/
  winner : Option (Candidate α) := none
  trace : Trace α
  timedOut : Bool := false

/-- A run: its steps, and how it ends if nothing cuts it off. -/
structure Run (α : Type) where
  steps : List (Step α)
  outcome : Outcome α

/-- The end of a run that a deadline cut off. -/
def Outcome.expired {α : Type} (deadline : Float) (t : Trace α) : Outcome α :=
  { trace := t.note "deadline" ("exceeded " ++ millisText deadline ++ ", resolution aborted")
    timedOut := true }

/-- How a run ends under a deadline.  A deadline that is not ahead lets nothing begin. -/
def Run.within {α : Type} (run : Run α) (deadline : Option Float) : Outcome α :=
  match deadline with
  | none => run.outcome
  | some d =>
    if millis d ≤ 0 then .expired d {}
    else
      match cutOff? (millis d) run.steps with
      | some t => .expired d t
      | none => run.outcome

end Mooring.Resolution
