import Mooring.Anchor.Refresh
import Mooring.Resolution.Tiers

/-!
# Resolving an anchor

A resolution asks the live page about the stored selector first; if it is alive, that is the answer.
Otherwise the stored fragment is indexed for its durable attributes, the three searching tiers run
one after the other, and the page is asked about everything they found, all at the same time.  Each
stage has a budget; a stage that exceeds it yields nothing and the next one begins.

The whole run is computed as a list of steps (`Mooring.Resolution.Timeline`), so an overall deadline
only decides how much of it is seen.
-/

namespace Mooring.Resolution

open Mooring.Decimal Mooring.Markup Mooring.Text

variable {α : Type} [Scalar α]

/-- The smaller of two budgets. -/
def smallerBudget (a b : Float) : Float :=
  if b < a then b else a

/-- The strategies that an anchor prefers. -/
def Task.prefer (task : Task α) : List String :=
  (task.anchor.hint.bind (·.prefer)).getD []

/-! ### The stored selector -/

/-- The candidate for the stored selector after asking about it. -/
def storedCandidate (selector : String) (verdict : Verdict) : Candidate α :=
  { selector
    tier := .storedSelector
    score := Scalar.one
    liveness := verdict.liveness
    probeError := verdict.error }

/-- The account of a stored selector that is not alive. -/
def storedMessage (verdict : Verdict) : String :=
  "stored selector " ++ verdict.liveness.name ++
    match nonEmpty verdict.error with
    | some e => " (" ++ e ++ ")"
    | none => ""

/-- How long the page may take about the stored selector. -/
def Task.storedTimeout (task : Task α) : Float :=
  smallerBudget (task.budgets.ms .fastPath) (task.budgets.ms .probe)

/-- What comes of asking about the stored selector. -/
def Task.storedVisit (task : Task α) : Visit :=
  (task.page task.anchor.selector).visit task.storedTimeout

/-- The questions that a page heard in a visit. -/
def heard (selector : String) (timeout : Float) (visit : Visit) : List ProbeCall :=
  if visit.asked then [⟨selector, timeout⟩] else []

/-- The step of asking about the stored selector. -/
def storedStep (task : Task α) : Step α :=
  let visit := task.storedVisit
  let during : Trace α := { probed := heard task.anchor.selector task.storedTimeout visit }
  let label := Tier.storedSelector.label
  let found := { during with
    candidates := [storedCandidate task.anchor.selector visit.verdict]
    durations := [(label, visit.cost)] }
  { during
    cost := visit.cost
    done :=
      if visit.verdict.liveness = .alive then found
      else found.note label (storedMessage visit.verdict) }

/-! ### The stored fragment -/

/-- The stage of indexing the stored fragment. -/
def parseLabel : String := "source_parse"

/-- The step of indexing the stored fragment after a trace, and the fragment's first element.  There
is no such step if no fragment is stored. -/
def parseStep (task : Task α) (before : Trace α) : Option (Step α × Option Node) :=
  (nonEmpty task.anchor.snippet).map fun snippet =>
    let indexing := task.indexer before.indexed.length snippet 0
    let during := { before with indexed := before.indexed ++ [⟨snippet.length, 0⟩] }
    let budget := task.budgets.ms .sourceParse
    let overdue := "stored snippet parse timed out after " ++ millisText budget
    let step (cost : Rat) (done : Trace α) : Step α :=
      { during, cost, done := done.took parseLabel cost, alwaysTimed := some parseLabel }
    if millis budget < indexing.cost then
      (step (millis budget) (during.note parseLabel overdue), none)
    else
      match indexing.result with
      | .error e => (step indexing.cost (during.note parseLabel (e.account overdue)), none)
      | .ok index =>
        match index.primary? with
        | some node => (step indexing.cost during, some node)
        | none =>
          (step indexing.cost (during.note parseLabel "stored snippet has no elements"), none)

/-! ### The searching tiers -/

/-- The budget of a tier. -/
def Tier.stage : Tier → Settings.Stage
  | storedSelector => .fastPath
  | fastStructural => .fastPath
  | attributeMatch => .attributeMatch
  | fullStructural => .fullScan

/-- Candidates appended to those there are, each selector once, each with its place. -/
def addCandidates (known : List (Candidate α)) : List (Candidate α) → List (Candidate α)
  | [] => known
  | c :: rest =>
    if known.any (·.selector == c.selector) then addCandidates known rest
    else addCandidates (known ++ [{ c with order := known.length }]) rest

/-- The work is done within the budget of its tier. -/
def Work.inTime (task : Task α) (tier : Tier) (work : Work α) : Bool :=
  !(millis (task.budgets.ms tier.stage) < work.cost)

/-- The step of a tier after a trace. -/
def tierStep (task : Task α) (tier : Tier) (before : Trace α) (work : Work α) : Step α :=
  let during := { before with indexed := before.indexed ++ work.calls }
  let budget := task.budgets.ms tier.stage
  let overdue := "timed out after " ++ millisText budget
  let label := tier.label
  if work.inTime task tier then
    let noted :=
      match work.result with
      | .ok yield =>
        { during.note label yield.message with
          candidates := addCandidates during.candidates yield.candidates }
      | .error e => during.note label (e.account overdue)
    { during, cost := work.cost, done := noted.took label work.cost }
  else
    { during
      cost := millis budget
      done := (during.note label overdue).took label (millis budget) }

/-- The steps of the three searching tiers after a trace, in order. -/
def searchSteps (task : Task α) (stored : Option Node) (before : Trace α) : List (Step α) :=
  let shape := Selector.Shape.ofSelector task.anchor.selector
  let fast := tierStep task .fastStructural before
    (fastStructural task shape before.indexed.length)
  let matching := attributeMatch task shape stored fast.done.indexed.length
  let second := tierStep task .attributeMatch fast.done matching
  let cached := if matching.inTime task .attributeMatch then matching.index else none
  let third := tierStep task .fullStructural second.done
    (fullStructural task shape cached second.done.indexed.length)
  [fast, second, third]

/-! ### Asking about all candidates -/

/-- The stage of asking about all candidates. -/
def probeLabel : String := "probe"

/-- The longest of some times. -/
def longest : List Rat → Rat
  | [] => 0
  | t :: rest => max t (longest rest)

/-- A candidate after asking about it; the stored selector has been asked about before. -/
def Task.probed (task : Task α) (c : Candidate α) : Candidate α :=
  if c.tier = .storedSelector then c
  else
    let verdict := ((task.page c.selector).visit (task.budgets.ms .probe)).verdict
    { c with liveness := verdict.liveness, probeError := verdict.error }

/-- The step of asking about all candidates after a trace. -/
def probeStep (task : Task α) (before : Trace α) : Step α :=
  let timeout := task.budgets.ms .probe
  let pending := (before.candidates.map (·.selector)).filter (· != task.anchor.selector)
  let visits := pending.map fun selector => (selector, (task.page selector).visit timeout)
  let heardNow := visits.flatMap fun (selector, visit) => heard selector timeout visit
  let during := { before with probed := before.probed ++ heardNow }
  let cost := longest (visits.map (·.2.cost))
  let candidates := before.candidates.map task.probed
  let alive := (candidates.filter (·.liveness = .alive)).length
  let asked := { during with candidates }
  let noted :=
    if pending.isEmpty then asked
    else asked.note probeLabel
      (toString alive ++ "/" ++ toString candidates.length ++ " candidates alive")
  { during, cost, done := noted.took probeLabel cost }

/-! ### The whole run -/

/-- The trace with its candidates rated. -/
def Task.rate (task : Task α) (t : Trace α) : Trace α :=
  { t with candidates := t.candidates.map (·.rated task.weights task.prefer) }

/-- How a run ends when the stored selector is alive. -/
def storedOutcome (task : Task α) (t : Trace α) : Outcome α :=
  let t := (task.rate t).note Tier.storedSelector.label
    ("stored selector is alive: " ++ task.anchor.selector)
  { winner := t.candidates.head?, trace := t }

/-- The account of the winner. -/
def winnerMessage (c : Candidate α) : String :=
  c.selector ++ " from " ++ c.tier.label ++ " (confidence " ++
    String.ofList (Scalar.twoPlaces c.confidence) ++ ", stability " ++
    toString ((c.stability.map (·.percent)).getD 0) ++ "%)"

/-- How a run ends after all candidates have been asked about. -/
def searchOutcome (task : Task α) (t : Trace α) : Outcome α :=
  let t := task.rate t
  match Candidate.winner? t.candidates with
  | some c => { winner := some c, trace := t.note "result" (winnerMessage c) }
  | none =>
    { trace := t.note "result" ("no live candidate among " ++ toString t.candidates.length) }

/-- The record after some steps. -/
def lastTrace (before : Trace α) (steps : List (Step α)) : Trace α :=
  ((steps.getLast?).map (·.done)).getD before

/-- The run of a resolution. -/
def Task.run (task : Task α) : Run α :=
  let first := storedStep task
  if task.storedVisit.verdict.liveness = .alive then
    { steps := [first], outcome := storedOutcome task first.done }
  else
    let parsed := parseStep task first.done
    let parseSteps := (parsed.map (·.1)).toList
    let searching := searchSteps task (parsed.bind (·.2)) (lastTrace first.done parseSteps)
    let last := probeStep task (lastTrace first.done searching)
    { steps := first :: parseSteps ++ searching ++ [last], outcome := searchOutcome task last.done }

/-- Resolves an anchor, perhaps under a deadline in milliseconds. -/
def resolve (task : Task α) (deadline : Option Float := none) : Outcome α :=
  task.run.within deadline

/-- The selector that an outcome reports, if something was found. -/
def Outcome.selector? (outcome : Outcome α) : Option String :=
  outcome.winner.map (·.selector)

/-- The tier that found it. -/
def Outcome.tier? (outcome : Outcome α) : Option Tier :=
  outcome.winner.map (·.tier)

/-- How much the report is to be trusted: not at all if nothing was found. -/
def Outcome.confidence (outcome : Outcome α) : α :=
  (outcome.winner.map (·.confidence)).getD Scalar.zero

/-- What an outcome hands to the anchor, if something was found. -/
def Outcome.finding? (outcome : Outcome Float) : Option Anchor.Finding :=
  outcome.winner.map fun c =>
    { selector := c.selector
      confidence := .float c.confidence
      hash := c.hash
      range :=
        match c.lines with
        | some (first, last) => [("start", .int first), ("end", .int last)]
        | none => []
      snippet := c.snippet }

end Mooring.Resolution
