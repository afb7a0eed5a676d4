import Mooring.Proofs.Resolution.Degradation

/-!
# How soon a page answers does not matter, as long as it is in time

A page is asked about many selectors at the same time, and its answers come in an order that depends
on how long each takes.  Take two pages that say the same about every selector, both within the
budgets (`Task.Prompt`), but after delays of their own.  A resolution ends the same with both: same
winner, same reasons, same candidates, same questions.  Only the times that are recorded differ, and
they are recorded for the same stages (`resolve_delays`).

Records that differ in times alone (`Trace.Agrees`) are followed through the run.  The page is asked
in the first step and in the last one; the steps between do not depend on it.
-/

namespace Mooring.Resolution

open Mooring.Decimal Mooring.Markup

variable {α : Type}

/-! ## Records that agree -/

/-- Two records say the same, but for the times that the stages took. -/
structure Trace.Agrees (t t' : Trace α) : Prop where
  stages : t'.durations.names = t.durations.names
  reasons : t'.reasons = t.reasons
  candidates : t'.candidates = t.candidates
  probed : t'.probed = t.probed
  indexed : t'.indexed = t.indexed

/-- Two resolutions end the same, but for the times that the stages took. -/
structure Outcome.Agrees (o o' : Outcome α) : Prop where
  winner : o'.winner = o.winner
  timedOut : o'.timedOut = o.timedOut
  trace : o.trace.Agrees o'.trace

namespace Trace.Agrees

variable {t t' : Trace α}

/-- One of the records is the other one with other times. -/
theorem exists_durations (h : t.Agrees t') :
    ∃ durations : Table Rat, durations.names = t.durations.names ∧ t' = { t with durations } := by
  obtain ⟨hstages, hreasons, hcandidates, hprobed, hindexed⟩ := h
  cases t
  cases t'
  exact ⟨_, hstages, by simp_all⟩

theorem note (h : t.Agrees t') (stage message : String) :
    (t.note stage message).Agrees (t'.note stage message) :=
  ⟨h.stages, congrArg (· ++ _) h.reasons, h.candidates, h.probed, h.indexed⟩

/-- The times may differ. -/
theorem took (h : t.Agrees t') (stage : String) (cost cost' : Rat) :
    (t.took stage cost).Agrees (t'.took stage cost') := by
  refine ⟨?_, h.reasons, h.candidates, h.probed, h.indexed⟩
  show (Table.put stage cost' t'.durations).names = (Table.put stage cost t.durations).names
  rw [Table.names_put, Table.names_put, h.stages]

end Trace.Agrees

/-! ## The steps between the first and the last one -/

/-- Indexing the stored fragment makes the same of records that agree. -/
theorem Trace.Agrees.parseStep {t t' : Trace α} (h : t.Agrees t') (task : Task α) :
    Option.Rel (fun parsed parsed' => parsed.1.done.Agrees parsed'.1.done ∧ parsed'.2 = parsed.2)
      (parseStep task t) (parseStep task t') := by
  obtain ⟨durations, hstages, rfl⟩ := h.exists_durations
  unfold Resolution.parseStep
  cases Text.nonEmpty task.anchor.snippet with
  | none => exact .none
  | some snippet =>
    have hcalled : Trace.Agrees
        { t with indexed := t.indexed ++ [⟨snippet.length, 0⟩] }
        { t with durations, indexed := t.indexed ++ [⟨snippet.length, 0⟩] } :=
      ⟨hstages, rfl, rfl, rfl, rfl⟩
    refine .some ?_
    dsimp only
    by_cases hlate : millis (task.budgets.ms .sourceParse) <
        (task.indexer t.indexed.length snippet 0).cost
    · rw [if_pos hlate, if_pos hlate]
      exact ⟨(hcalled.note _ _).took _ _ _, rfl⟩
    · rw [if_neg hlate, if_neg hlate]
      cases (task.indexer t.indexed.length snippet 0).result with
      | error e => exact ⟨(hcalled.note _ _).took _ _ _, rfl⟩
      | ok index =>
        dsimp only
        cases index.primary? with
        | some node => exact ⟨hcalled.took _ _ _, rfl⟩
        | none => exact ⟨(hcalled.note _ _).took _ _ _, rfl⟩

/-- A tier makes the same of records that agree. -/
theorem Trace.Agrees.tierStep {t t' : Trace α} (h : t.Agrees t') (task : Task α) (tier : Tier)
    (work : Work α) :
    (tierStep task tier t work).done.Agrees (tierStep task tier t' work).done := by
  obtain ⟨durations, hstages, rfl⟩ := h.exists_durations
  have hcalled : Trace.Agrees { t with indexed := t.indexed ++ work.calls }
      { t with durations, indexed := t.indexed ++ work.calls } :=
    ⟨hstages, rfl, rfl, rfl, rfl⟩
  unfold Resolution.tierStep
  dsimp only
  by_cases htime : work.inTime task tier = true
  · rw [if_pos htime, if_pos htime]
    cases work.result with
    | error e => exact (hcalled.note _ _).took _ _ _
    | ok found =>
      have hnoted := hcalled.note tier.label found.message
      refine Trace.Agrees.took ?_ _ _ _
      exact ⟨hnoted.stages, hnoted.reasons, rfl, rfl, rfl⟩
  · rw [if_neg htime, if_neg htime]
    exact (hcalled.note _ _).took _ _ _

/-- The same work makes the same of records that agree. -/
theorem Turn.agrees_step (task : Task α) {turn turn' : Turn α}
    (hbefore : turn.before.Agrees turn'.before) (htier : turn'.tier = turn.tier)
    (hwork : turn'.work = turn.work) : (turn.step task).done.Agrees (turn'.step task).done := by
  unfold Turn.step
  rw [htier, hwork]
  exact hbefore.tierStep task _ _

/-! ## Pages that are in time -/

/-- The page answers about every selector within both budgets that bound a question to it. -/
def Task.Prompt (task : Task α) (page : Page) : Prop :=
  ∀ selector, 0 ≤ (page selector).delay ∧
    (page selector).delay < millis (task.budgets.ms .fastPath) ∧
    (page selector).delay < millis (task.budgets.ms .probe)

/-- The task with another page. -/
def Task.onPage (task : Task α) (page : Page) : Task α :=
  { task with page }

theorem Task.anchor_onPage (task : Task α) (page : Page) :
    (task.onPage page).anchor = task.anchor := rfl

/-- A turn does the same on every page. -/
theorem Turn.step_onPage (task : Task α) (page : Page) (turn : Turn α) :
    turn.step (task.onPage page) = turn.step task := rfl

theorem Turn.left_onPage (task : Task α) (page : Page) (turn : Turn α) :
    turn.left (task.onPage page) = turn.left task := rfl

/-- A reply that comes in time is heard, and decides the verdict. -/
theorem visit_of_prompt {p : Probing} {timeout : Float} (hdelay : 0 ≤ p.delay)
    (htime : p.delay < millis timeout) :
    p.visit timeout = ⟨true, p.reply.verdict timeout, p.delay⟩ := by
  unfold Probing.visit
  dsimp only
  rw [if_neg (not_le.mpr (lt_of_le_of_lt hdelay htime)), if_neg (not_lt.mpr (le_of_lt htime))]

theorem Task.storedTimeout_cases (task : Task α) :
    task.storedTimeout = task.budgets.ms .fastPath ∨
      task.storedTimeout = task.budgets.ms .probe := by
  unfold Task.storedTimeout smallerBudget
  split
  · exact Or.inr rfl
  · exact Or.inl rfl

namespace Task.Prompt

variable {task : Task α} {page : Page}

theorem stored (h : task.Prompt page) (selector : String) :
    (page selector).delay < millis task.storedTimeout := by
  rcases task.storedTimeout_cases with he | he
  · rw [he]
    exact (h selector).2.1
  · rw [he]
    exact (h selector).2.2

/-- A question to a prompt page about the stored selector. -/
theorem visit_stored (h : task.Prompt page) (selector : String) :
    (page selector).visit task.storedTimeout =
      ⟨true, (page selector).reply.verdict task.storedTimeout, (page selector).delay⟩ :=
  visit_of_prompt (h selector).1 (h.stored selector)

/-- A question to a prompt page about another selector. -/
theorem visit_probe (h : task.Prompt page) (selector : String) :
    (page selector).visit (task.budgets.ms .probe) =
      ⟨true, (page selector).reply.verdict (task.budgets.ms .probe), (page selector).delay⟩ :=
  visit_of_prompt (h selector).1 (h selector).2.2

end Task.Prompt

/-- Two pages that say the same about every selector, in time. -/
structure Task.SameAnswers (task : Task α) (page page' : Page) : Prop where
  prompt : task.Prompt page
  prompt' : task.Prompt page'
  reply : ∀ selector, (page' selector).reply = (page selector).reply

namespace Task.SameAnswers

variable {task : Task α} {page page' : Page}

theorem probed (h : task.SameAnswers page page') :
    (task.onPage page').probed = (task.onPage page).probed := by
  funext c
  have hvisit := h.prompt.visit_probe c.selector
  have hvisit' := h.prompt'.visit_probe c.selector
  unfold Task.probed Task.onPage
  dsimp only
  rw [hvisit, hvisit', h.reply]

/-- A prompt page hears every question. -/
theorem heard_visit (h : task.SameAnswers page page') (selectors : List String) :
    (selectors.flatMap fun selector => heard selector (task.budgets.ms .probe)
        ((page' selector).visit (task.budgets.ms .probe))) =
      selectors.flatMap fun selector => heard selector (task.budgets.ms .probe)
        ((page selector).visit (task.budgets.ms .probe)) := by
  refine List.flatMap_congr fun selector _ => ?_
  rw [h.prompt.visit_probe, h.prompt'.visit_probe]
  rfl

/-- Asking about all candidates makes the same of records that agree. -/
theorem probeStep (h : task.SameAnswers page page') {t t' : Trace α} (hsame : t.Agrees t') :
    (probeStep (task.onPage page) t).done.Agrees (probeStep (task.onPage page') t').done := by
  obtain ⟨durations, hstages, rfl⟩ := hsame.exists_durations
  have hprobed := h.probed
  have hheard := h.heard_visit
    ((t.candidates.map (·.selector)).filter (· != task.anchor.selector))
  unfold Resolution.probeStep
  rw [hprobed]
  dsimp only [Task.onPage] at hheard ⊢
  rw [List.flatMap_map, List.flatMap_map, hheard]
  refine Trace.Agrees.took ?_ _ _ _
  split
  · exact ⟨hstages, rfl, rfl, rfl, rfl⟩
  · exact ⟨hstages, rfl, rfl, rfl, rfl⟩

variable [Scalar α]

/-- Asking about the stored selector makes the same record, but for the time it took. -/
theorem storedStep (h : task.SameAnswers page page') :
    (storedStep (task.onPage page)).done.Agrees (storedStep (task.onPage page')).done ∧
      (task.onPage page').storedVisit.verdict = (task.onPage page).storedVisit.verdict := by
  have hvisit : (task.onPage page).storedVisit =
      ⟨true, (page task.anchor.selector).reply.verdict task.storedTimeout,
        (page task.anchor.selector).delay⟩ := h.prompt.visit_stored _
  have hvisit' : (task.onPage page').storedVisit =
      ⟨true, (page task.anchor.selector).reply.verdict task.storedTimeout,
        (page' task.anchor.selector).delay⟩ := by
    rw [← h.reply]
    exact h.prompt'.visit_stored _
  unfold Resolution.storedStep
  rw [hvisit, hvisit']
  refine ⟨?_, rfl⟩
  dsimp only
  split
  · exact ⟨rfl, rfl, rfl, rfl, rfl⟩
  · exact ⟨rfl, rfl, rfl, rfl, rfl⟩

end Task.SameAnswers

/-! ## The whole run -/

section

variable [Scalar α]

/-- The same outcome follows from records that agree. -/
theorem Trace.Agrees.storedOutcome {t t' : Trace α} (h : t.Agrees t') (task : Task α) :
    (storedOutcome task t).Agrees (storedOutcome task t') := by
  obtain ⟨durations, hstages, rfl⟩ := h.exists_durations
  exact ⟨rfl, rfl, hstages, rfl, rfl, rfl, rfl⟩

theorem Trace.Agrees.searchOutcome {t t' : Trace α} (h : t.Agrees t') (task : Task α) :
    (searchOutcome task t).Agrees (searchOutcome task t') := by
  obtain ⟨durations, hstages, rfl⟩ := h.exists_durations
  unfold Resolution.searchOutcome Task.rate
  dsimp only
  cases Candidate.winner? (t.candidates.map (·.rated task.weights task.prefer)) with
  | some c => exact ⟨rfl, rfl, hstages, rfl, rfl, rfl, rfl⟩
  | none => exact ⟨rfl, rfl, hstages, rfl, rfl, rfl, rfl⟩

section

variable (task : Task α) (page : Page)

theorem fastStructural_onPage (shape : Selector.Shape) (earlier : Nat) :
    fastStructural (task.onPage page) shape earlier = fastStructural task shape earlier := rfl

theorem attributeMatch_onPage (shape : Selector.Shape) (node : Option Node) (earlier : Nat) :
    attributeMatch (task.onPage page) shape node earlier =
      attributeMatch task shape node earlier := rfl

theorem fullStructural_onPage (shape : Selector.Shape) (cached : Option Index) (earlier : Nat) :
    fullStructural (task.onPage page) shape cached earlier =
      fullStructural task shape cached earlier := rfl

theorem work_fastTurn : (task.onPage page).fastTurn.work =
    fastStructural task (.ofSelector task.anchor.selector)
      (task.onPage page).begun.indexed.length := by
  simp only [Task.fastTurn, fastStructural_onPage, Task.anchor_onPage]

theorem before_matchTurn : (task.onPage page).matchTurn.before =
    ((task.onPage page).fastTurn.step task).done := by
  simp only [Task.matchTurn, Turn.step_onPage]

theorem before_fullTurn : (task.onPage page).fullTurn.before =
    ((task.onPage page).matchTurn.step task).done := by
  simp only [Task.fullTurn, Turn.step_onPage]

theorem work_matchTurn : (task.onPage page).matchTurn.work =
    attributeMatch task (.ofSelector task.anchor.selector) ((task.onPage page).parsed.bind (·.2))
      ((task.onPage page).fastTurn.step task).done.indexed.length := by
  simp only [Task.matchTurn, attributeMatch_onPage, Task.anchor_onPage, Turn.step_onPage]

theorem work_fullTurn : (task.onPage page).fullTurn.work =
    fullStructural task (.ofSelector task.anchor.selector)
      ((task.onPage page).matchTurn.left task)
      ((task.onPage page).matchTurn.step task).done.indexed.length := by
  simp only [Task.fullTurn, fullStructural_onPage, Task.anchor_onPage, Turn.step_onPage,
    Turn.left_onPage]

end

namespace Task.SameAnswers

variable {task : Task α} {page page' : Page}

/-- The searching tiers begin with records that agree, and with the same first element. -/
theorem begun (h : task.SameAnswers page page') :
    (task.onPage page).begun.Agrees (task.onPage page').begun ∧
      (task.onPage page').parsed.bind (·.2) = (task.onPage page).parsed.bind (·.2) := by
  have hstored := h.storedStep.1
  have hparsed : Option.Rel _ (task.onPage page).parsed (task.onPage page').parsed :=
    hstored.parseStep task
  unfold Task.begun
  generalize (task.onPage page).parsed = parsed at hparsed ⊢
  generalize (task.onPage page').parsed = parsed' at hparsed ⊢
  cases hparsed with
  | none => exact ⟨hstored, rfl⟩
  | some hstep => exact ⟨hstep.1, hstep.2⟩

/-- **The searching tiers end with records that agree.** -/
theorem searched (h : task.SameAnswers page page') :
    (task.onPage page).searched.Agrees (task.onPage page').searched := by
  obtain ⟨hbegun, hnode⟩ := h.begun
  have hfast : ((task.onPage page).fastTurn.step task).done.Agrees
      ((task.onPage page').fastTurn.step task).done := by
    refine Turn.agrees_step task hbegun rfl ?_
    rw [work_fastTurn, work_fastTurn, hbegun.indexed]
  have hmatched : (task.onPage page').matchTurn.work = (task.onPage page).matchTurn.work := by
    rw [work_matchTurn, work_matchTurn, hnode, hfast.indexed]
  have hmatch : ((task.onPage page).matchTurn.step task).done.Agrees
      ((task.onPage page').matchTurn.step task).done := by
    refine Turn.agrees_step task ?_ rfl hmatched
    rw [before_matchTurn, before_matchTurn]
    exact hfast
  have hleft :
      (task.onPage page').matchTurn.left task = (task.onPage page).matchTurn.left task := by
    unfold Turn.left
    rw [hmatched]
  rw [searched_eq, searched_eq, Turn.step_onPage, Turn.step_onPage]
  refine Turn.agrees_step task ?_ rfl ?_
  · rw [before_fullTurn, before_fullTurn]
    exact hmatch
  · rw [work_fullTurn, work_fullTurn, hleft, hmatch.indexed]

end Task.SameAnswers

/-- **How soon a page answers changes nothing but the recorded times**, as long as every answer
comes within the budgets.  Two pages that say the same about each selector, after different delays,
lead to the same winner, and so to the same selector, tier, confidence, hash, lines and fragment;
to the same reasons; to the same candidates, in the same order, with the same liveness, errors and
stability; and to the same questions.  Times are recorded for the same stages. -/
theorem resolve_delays {task : Task α} {page page' : Page} (h : task.SameAnswers page page') :
    (resolve (task.onPage page) none).Agrees (resolve (task.onPage page') none) := by
  obtain ⟨hstored, hverdict⟩ := h.storedStep
  show (task.onPage page).run.outcome.Agrees (task.onPage page').run.outcome
  by_cases halive : (task.onPage page).storedVisit.verdict.liveness = .alive
  · rw [outcome_eq_storedOutcome halive, outcome_eq_storedOutcome (by rw [hverdict]; exact halive)]
    exact hstored.storedOutcome task
  · rw [outcome_of_not_alive halive, outcome_of_not_alive (by rw [hverdict]; exact halive)]
    exact (h.probeStep h.searched).searchOutcome task

end

/-- A resolution that asks about two selectors at the same time, after the stored one. -/
def Task.racing : Task Float :=
  { Task.proposingTwice with
    anchor :=
      { id := "a", selector := "#a", updatedAt := ""
        hint := some { testid := some "x", label := some "go" } }
    budgets := ⟨fun _ => 100⟩ }

/-- A page that denies the stored selector, and takes its time about `[aria-label="go"]`. -/
def racingPage (slow quick : Rat) : Page := fun selector =>
  ⟨if selector == "[aria-label=\"go\"]" then slow else quick, .answer (selector != "#a") none⟩

theorem prompt_racingPage {slow quick : Rat} (hslow : 0 ≤ slow ∧ slow < millis 100)
    (hquick : 0 ≤ quick ∧ quick < millis 100) : Task.racing.Prompt (racingPage slow quick) := by
  intro selector
  have htime : ∀ stage, Task.racing.budgets.ms stage = 100 := fun _ => rfl
  unfold racingPage
  dsimp only
  rw [htime, htime]
  split
  · exact ⟨hslow.1, hslow.2, hslow.2⟩
  · exact ⟨hquick.1, hquick.2, hquick.2⟩

theorem resolve_delays_racing :
    Task.racing.SameAnswers (racingPage 9 1) (racingPage 2 5) ∧
      (resolve (Task.racing.onPage (racingPage 9 1)) none).Agrees
        (resolve (Task.racing.onPage (racingPage 2 5)) none) ∧
      (resolve (Task.racing.onPage (racingPage 9 1)) none).trace.durations.get? "probe" = some 9 ∧
      (resolve (Task.racing.onPage (racingPage 2 5)) none).trace.durations.get? "probe" = some 5 ∧
      (resolve (Task.racing.onPage (racingPage 2 5)) none).selector? =
        some "[data-testid=\"x\"]" := by
  have hsame : Task.racing.SameAnswers (racingPage 9 1) (racingPage 2 5) :=
    ⟨prompt_racingPage (by decide) (by decide),
      prompt_racingPage (by decide) (by decide), fun _ => rfl⟩
  exact ⟨hsame, resolve_delays hsame, by decide, by decide, by decide⟩

end Mooring.Resolution
