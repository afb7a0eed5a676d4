import Mathlib.Tactic.Linarith
import Mooring.Proofs.Resolution.Listing
import Mooring.Proofs.Resolution.Winner

/-!
# A resolution trusts the page, and nothing else

Whether a resolution finds something is decided by the page and by time alone.  `Page.Confirms` says
what counts as a yes: the reply is a plain yes, and it comes within the timeout.  `Run.Overruns`
says when the overall deadline strikes: some stretch of the run, from its beginning, takes longer
than there is.  The main theorem (`resolve_sound_complete`) says that there is a winner just if the
run does not overrun and the page confirms the stored selector, or a candidate that was found and
scores above zero.  The winner is a listed candidate that the page confirmed, so a selector that the
page denied, did not answer for or was slow about is never handed out; and the weights of the
stability score have no part in the choice.

It rests on two facts about every entry of the final list (`Task.Judged`): its liveness is what the
page said when it was asked with the timeout of its tier, and the stored selector is listed once, as
itself.
-/

namespace Mooring.Resolution

open Mooring.Decimal

variable {α : Type}

/-! ## What counts as a yes -/

/-- The page says yes to a selector within a timeout. -/
def Page.Confirms (page : Page) (timeout : Float) (selector : String) : Prop :=
  0 < millis timeout ∧ (page selector).delay ≤ millis timeout ∧
    ∃ error, (page selector).reply = .answer true error

theorem Reply.verdict_alive_iff (timeout : Float) (reply : Reply) :
    (reply.verdict timeout).liveness = .alive ↔ ∃ error, reply = .answer true error := by
  cases reply with
  | answer valid error => cases valid <;> simp [Reply.verdict]
  | nothing => simp [Reply.verdict]
  | failure kind text => simp [Reply.verdict]
  | gaveUp => simp [Reply.verdict, Verdict.overdue]

/-- **A visit ends with a live selector just if the page confirms it.** -/
theorem visit_alive_iff (page : Page) (timeout : Float) (selector : String) :
    ((page selector).visit timeout).verdict.liveness = .alive ↔ page.Confirms timeout selector := by
  unfold Probing.visit Page.Confirms
  dsimp only
  split
  next h => simp [Verdict.overdue, not_lt.mpr h]
  next h =>
    split
    next hlate => simp [Verdict.overdue, not_le.mpr hlate]
    next hlate =>
      rw [Reply.verdict_alive_iff]
      simp [not_le.mp h, not_lt.mp hlate]

/-! ## When the deadline strikes -/

/-- Some stretch of the run, from its beginning, takes longer than the deadline allows. -/
def Run.Overruns (run : Run α) (deadline : Option Float) : Prop :=
  ∃ d, deadline = some d ∧ (millis d ≤ 0 ∨ ∃ n, millis d < totalCost (run.steps.take n))

/-- A run is cut off just if some stretch of it is too long. -/
theorem cutOff?_isSome_iff : ∀ (steps : List (Step α)) (left : Rat), 0 ≤ left →
    ((cutOff? left steps).isSome ↔ ∃ n, left < totalCost (steps.take n)) := by
  intro steps
  induction steps with
  | nil =>
    intro left hleft
    simp only [cutOff?, Option.isSome_none, Bool.false_eq_true, List.take_nil, totalCost,
      exists_const, false_iff, not_lt]
    exact hleft
  | cons step rest ih =>
    intro left hleft
    rw [cutOff?]
    split
    next hcut =>
      -- The first step alone is too long.
      refine iff_of_true rfl ⟨1, ?_⟩
      rw [List.take_succ_cons, List.take_zero, totalCost, totalCost]
      linarith
    next hkeep =>
      -- The first step fits, so a stretch is too long just if what is left of it is.
      rw [ih _ (by linarith)]
      constructor
      · rintro ⟨n, hn⟩
        refine ⟨n + 1, ?_⟩
        rw [List.take_succ_cons, totalCost]
        linarith
      · rintro ⟨n, hn⟩
        cases n with
        | zero =>
          rw [List.take_zero, totalCost] at hn
          exact absurd hn (not_lt.mpr hleft)
        | succ n =>
          rw [List.take_succ_cons, totalCost] at hn
          exact ⟨n, by linarith⟩

/-- A run that overruns its deadline finds nothing; any other ends as it does without one. -/
theorem within_cases (run : Run α) (deadline : Option Float) :
    (run.Overruns deadline ∧ (run.within deadline).winner = none) ∨
      (¬ run.Overruns deadline ∧ run.within deadline = run.outcome) := by
  unfold Run.Overruns Run.within
  cases deadline with
  | none => simp
  | some d =>
    dsimp only
    by_cases hpast : millis d ≤ 0
    · rw [if_pos hpast]
      exact Or.inl ⟨⟨d, rfl, Or.inl hpast⟩, rfl⟩
    · have hcut := cutOff?_isSome_iff run.steps (millis d) (le_of_lt (not_le.mp hpast))
      rw [if_neg hpast]
      cases hc : cutOff? (millis d) run.steps with
      | some t =>
        rw [hc] at hcut
        exact Or.inl ⟨⟨d, rfl, Or.inr (hcut.mp rfl)⟩, rfl⟩
      | none =>
        rw [hc] at hcut
        refine Or.inr ⟨?_, rfl⟩
        rintro ⟨e, he, hover⟩
        obtain rfl := Option.some.inj he
        rcases hover with hover | hover
        · exact hpast hover
        · exact absurd (hcut.mpr hover) (by simp)

/-! ## The steps of a run take no weights -/

section Weights

/-- The task with other weights. -/
def Task.weighted (task : Task α) (weights : Settings.Blend α) : Task α :=
  { task with weights }

variable (task : Task α) (weights : Settings.Blend α)

theorem parseStep_weighted (before : Trace α) :
    parseStep (task.weighted weights) before = parseStep task before := rfl

theorem inTime_weighted (tier : Tier) (work : Work α) :
    work.inTime (task.weighted weights) tier = work.inTime task tier := rfl

theorem tierStep_weighted (tier : Tier) (before : Trace α) (work : Work α) :
    tierStep (task.weighted weights) tier before work = tierStep task tier before work := rfl

theorem probeStep_weighted (before : Trace α) :
    probeStep (task.weighted weights) before = probeStep task before := rfl

variable [Scalar α]

theorem storedStep_weighted : storedStep (task.weighted weights) = storedStep task := rfl

theorem fastStructural_weighted (shape : Selector.Shape) (earlier : Nat) :
    fastStructural (task.weighted weights) shape earlier = fastStructural task shape earlier := rfl

theorem attributeMatch_weighted (shape : Selector.Shape) (node : Option Markup.Node)
    (earlier : Nat) :
    attributeMatch (task.weighted weights) shape node earlier =
      attributeMatch task shape node earlier := rfl

theorem fullStructural_weighted (shape : Selector.Shape) (cached : Option Markup.Index)
    (earlier : Nat) :
    fullStructural (task.weighted weights) shape cached earlier =
      fullStructural task shape cached earlier := rfl

theorem searchSteps_weighted (node : Option Markup.Node) (before : Trace α) :
    searchSteps (task.weighted weights) node before = searchSteps task node before := by
  have hanchor : (task.weighted weights).anchor = task.anchor := rfl
  unfold searchSteps
  simp only [hanchor, tierStep_weighted, inTime_weighted, fastStructural_weighted,
    attributeMatch_weighted, fullStructural_weighted]

theorem steps_weighted : (task.weighted weights).run.steps = task.run.steps := by
  unfold Task.run
  dsimp only
  have hvisit : (task.weighted weights).storedVisit = task.storedVisit := rfl
  rw [hvisit]
  split
  · rfl
  · simp only [storedStep_weighted, parseStep_weighted, searchSteps_weighted, probeStep_weighted]

end Weights

/-! ## What the final list says -/

theorem parseStep_candidates {task : Task α} {before : Trace α} {step : Step α}
    {node : Option Markup.Node} (h : parseStep task before = some (step, node)) :
    step.done.candidates = before.candidates := by
  obtain ⟨snippet, -, hstep⟩ := Option.map_eq_some_iff.mp h
  have hfst := congrArg (fun pair => pair.1.done.candidates) hstep
  rw [← hfst]
  dsimp only
  split
  · rfl
  · split
    · rfl
    · split <;> rfl

theorem probeStep_candidates (task : Task α) (before : Trace α) :
    (probeStep task before).done.candidates = before.candidates.map task.probed := by
  unfold probeStep
  dsimp only
  split <;> rfl

/-- How long the page may take about a candidate of a tier. -/
def Task.timeoutOf (task : Task α) (tier : Tier) : Float :=
  if tier = .storedSelector then task.storedTimeout else task.budgets.ms .probe

variable [Scalar α]

/-- What a candidate of the final list says is so: its liveness is what the page said, the stored
selector has a perfect score, and no other entry has its selector. -/
structure Task.Judged (task : Task α) (c : Candidate α) : Prop where
  alive : c.liveness = .alive ↔ task.page.Confirms (task.timeoutOf c.tier) c.selector
  score : c.tier = .storedSelector → c.score = Scalar.one
  selector : c.tier = .storedSelector ↔ c.selector = task.anchor.selector

theorem Task.Judged.rated {task : Task α} {c : Candidate α} (h : task.Judged c)
    (weights : Settings.Blend α) (prefer : List String) : task.Judged (c.rated weights prefer) :=
  ⟨h.alive, h.score, h.selector⟩

/-- The candidate for the stored selector after it was asked about. -/
def Task.stored (task : Task α) : Candidate α :=
  storedCandidate task.anchor.selector task.storedVisit.verdict

theorem judged_stored (task : Task α) : task.Judged task.stored :=
  ⟨visit_alive_iff task.page task.storedTimeout task.anchor.selector, fun _ => rfl,
    iff_of_true rfl rfl⟩

/-- Asking about what was found, and not about the stored selector again, judges a list. -/
theorem Task.Listed.judged {task : Task α} {candidates : List (Candidate α)}
    (h : task.Listed task.stored candidates) : ∀ c ∈ candidates.map task.probed, task.Judged c := by
  intro c hc
  obtain ⟨d, hd, rfl⟩ := List.mem_map.mp hc
  cases candidates with
  | nil => exact absurd hd (by simp)
  | cons first rest =>
    obtain rfl : first = task.stored := Option.some.inj h.head
    rcases List.mem_cons.mp hd with rfl | hd
    · exact judged_stored task
    · obtain ⟨index, node, -, -, hquotes⟩ := h.found d hd
      have htier := hquotes.tier
      have hprobed : task.probed d =
          let verdict := ((task.page d.selector).visit (task.budgets.ms .probe)).verdict
          { d with liveness := verdict.liveness, probeError := verdict.error } := by
        rw [Task.probed, if_neg htier]
      -- Selectors are listed once, so what was found is not the stored selector again.
      have hselector : d.selector ≠ task.anchor.selector := by
        intro he
        have hdistinct := h.distinct
        rw [List.map_cons, List.nodup_cons] at hdistinct
        exact hdistinct.1 (List.mem_map.mpr ⟨d, hd, he⟩)
      rw [hprobed]
      refine ⟨?_, fun he => absurd he htier, iff_of_false htier hselector⟩
      rw [Task.timeoutOf, if_neg htier]
      exact visit_alive_iff task.page _ d.selector

/-- The record of a search before the page is asked about what was found. -/
def Task.searched (task : Task α) : Trace α :=
  let parsed := parseStep task (storedStep task).done
  let before := lastTrace (storedStep task).done (parsed.map (·.1)).toList
  lastTrace before (searchSteps task (parsed.bind (·.2)) before)

theorem storedStep_candidates (task : Task α) :
    (storedStep task).done.candidates = [task.stored] := by
  unfold storedStep
  dsimp only
  split <;> rfl

/-- A search lists the stored selector and what was found. -/
theorem listed_searched (task : Task α) : task.Listed task.stored task.searched.candidates := by
  have hfirst : task.Listed task.stored (storedStep task).done.candidates := by
    rw [storedStep_candidates]
    exact ⟨rfl, by simp, by simp⟩
  refine Task.Listed.searchSteps ?_ _
  cases hstep : parseStep task (storedStep task).done with
  | none => exact hfirst
  | some parsed =>
    have hkeep := parseStep_candidates hstep
    show task.Listed task.stored parsed.1.done.candidates
    rw [hkeep]
    exact hfirst

theorem outcome_of_not_alive {task : Task α} (h : task.storedVisit.verdict.liveness ≠ .alive) :
    task.run.outcome = searchOutcome task (probeStep task task.searched).done := by
  unfold Task.run
  dsimp only
  rw [if_neg h]
  rfl

theorem outcome_eq_storedOutcome {task : Task α}
    (h : task.storedVisit.verdict.liveness = .alive) :
    task.run.outcome = storedOutcome task (storedStep task).done := by
  unfold Task.run
  dsimp only
  rw [if_pos h]

/-- The end of a run whose stored selector is alive. -/
theorem outcome_of_alive {task : Task α} (h : task.storedVisit.verdict.liveness = .alive) :
    task.run.outcome.trace.candidates = [task.stored.rated task.weights task.prefer] ∧
      task.run.outcome.winner = some (task.stored.rated task.weights task.prefer) := by
  have hrated : (task.rate (storedStep task).done).candidates =
      [task.stored.rated task.weights task.prefer] := by
    rw [Task.rate, storedStep_candidates]
    rfl
  rw [outcome_eq_storedOutcome h]
  exact ⟨hrated, congrArg List.head? hrated⟩

/-- The end of a run after all candidates were asked about. -/
theorem searchOutcome_eq (task : Task α) (t : Trace α) :
    (searchOutcome task t).trace.candidates =
        t.candidates.map (·.rated task.weights task.prefer) ∧
      (searchOutcome task t).winner =
        (Candidate.winner? t.candidates).map (·.rated task.weights task.prefer) := by
  have hwinner := Candidate.winner?_rated task.weights task.prefer t.candidates
  unfold searchOutcome
  dsimp only
  have hlist : (task.rate t).candidates = t.candidates.map (·.rated task.weights task.prefer) := rfl
  rw [hlist, hwinner]
  cases Candidate.winner? t.candidates <;> exact ⟨rfl, rfl⟩

/-- Every entry of the list at the end of a run is judged. -/
theorem judged_outcome (task : Task α) :
    ∀ c ∈ task.run.outcome.trace.candidates, task.Judged c := by
  by_cases halive : task.storedVisit.verdict.liveness = .alive
  · intro c hc
    rw [(outcome_of_alive halive).1] at hc
    rw [List.mem_singleton.mp hc]
    exact (judged_stored task).rated _ _
  · intro c hc
    rw [outcome_of_not_alive halive, (searchOutcome_eq task _).1, probeStep_candidates] at hc
    obtain ⟨d, hd, rfl⟩ := List.mem_map.mp hc
    exact ((listed_searched task).judged d hd).rated _ _

/-- The winner of a run stands in its list, and is alive. -/
theorem winner_of_outcome (hzero : Scalar.less (Scalar.zero : α) Scalar.zero = false)
    {task : Task α} {c : Candidate α} (h : task.run.outcome.winner = some c) :
    c ∈ task.run.outcome.trace.candidates ∧ c.liveness = .alive := by
  by_cases halive : task.storedVisit.verdict.liveness = .alive
  · obtain ⟨hlist, hwinner⟩ := outcome_of_alive halive
    rw [hwinner] at h
    rw [hlist, ← Option.some.inj h]
    exact ⟨List.mem_singleton.mpr rfl, halive⟩
  · have houtcome := outcome_of_not_alive halive
    obtain ⟨hlist, hwinner⟩ := searchOutcome_eq task (probeStep task task.searched).done
    rw [houtcome, hwinner] at h
    obtain ⟨d, hd, rfl⟩ := Option.map_eq_some_iff.mp h
    obtain ⟨hmem, hcontends⟩ := Candidate.winner?_eq_some hd
    rw [houtcome, hlist]
    exact ⟨List.mem_map.mpr ⟨d, hmem, rfl⟩, ((Candidate.isContender_iff hzero d).mp hcontends).1⟩

/-- A run that nothing cuts off has a winner just if the page confirms the stored selector, or a
candidate that was found and scores above zero. -/
theorem winner_isSome_iff (hzero : Scalar.less (Scalar.zero : α) Scalar.zero = false)
    (task : Task α) :
    task.run.outcome.winner.isSome ↔
      task.page.Confirms task.storedTimeout task.anchor.selector ∨
        ∃ c ∈ task.run.outcome.trace.candidates, c.tier ≠ .storedSelector ∧
          Scalar.less Scalar.zero c.score = true ∧
          task.page.Confirms (task.budgets.ms .probe) c.selector := by
  have hstored := visit_alive_iff task.page task.storedTimeout task.anchor.selector
  by_cases halive : task.storedVisit.verdict.liveness = .alive
  · rw [(outcome_of_alive halive).2]
    exact iff_of_true rfl (Or.inl (hstored.mp halive))
  · have hjudged := judged_outcome task
    have houtcome := outcome_of_not_alive halive
    obtain ⟨hlist, hwinner⟩ := searchOutcome_eq task (probeStep task task.searched).done
    have hsome : task.run.outcome.winner.isSome ↔
        ∃ c ∈ task.run.outcome.trace.candidates, c.isContender = true := by
      rw [houtcome, hwinner, hlist, Option.isSome_map, Candidate.winner?_isSome_iff]
      simp [Candidate.isContender_rated]
    rw [hsome]
    constructor
    · rintro ⟨c, hc, hcontends⟩
      obtain ⟨hlive, hscore⟩ := (Candidate.isContender_iff hzero c).mp hcontends
      have hj := hjudged c hc
      have hconfirms := hj.alive.mp hlive
      by_cases htier : c.tier = .storedSelector
      · rw [Task.timeoutOf, if_pos htier, hj.selector.mp htier] at hconfirms
        exact Or.inl hconfirms
      · rw [Task.timeoutOf, if_neg htier] at hconfirms
        exact Or.inr ⟨c, hc, htier, hscore, hconfirms⟩
    · rintro (hconfirms | ⟨c, hc, htier, hscore, hconfirms⟩)
      · exact absurd (hstored.mpr hconfirms) halive
      · have hlive : c.liveness = .alive := by
          rw [(hjudged c hc).alive, Task.timeoutOf, if_neg htier]
          exact hconfirms
        exact ⟨c, hc, (Candidate.isContender_iff hzero c).mpr ⟨hlive, hscore⟩⟩

theorem searched_weighted (task : Task α) (weights : Settings.Blend α) :
    (task.weighted weights).searched = task.searched := by
  unfold Task.searched
  simp only [storedStep_weighted, parseStep_weighted, searchSteps_weighted]

/-- **Other weights change nothing about the winner but its stability.** -/
theorem winner_weighted (task : Task α) (weights : Settings.Blend α) :
    ∃ winner : Option (Candidate α),
    task.run.outcome.winner = winner.map (·.rated task.weights task.prefer) ∧
      (task.weighted weights).run.outcome.winner =
        winner.map (·.rated weights task.prefer) := by
  by_cases halive : task.storedVisit.verdict.liveness = .alive
  · exact ⟨some task.stored, (outcome_of_alive halive).2,
      (@outcome_of_alive α _ (task.weighted weights) halive).2⟩
  · refine ⟨Candidate.winner? (probeStep task task.searched).done.candidates, ?_, ?_⟩
    · rw [outcome_of_not_alive halive, (searchOutcome_eq task _).2]
    · rw [@outcome_of_not_alive α _ (task.weighted weights) halive, (searchOutcome_eq _ _).2,
        probeStep_weighted, searched_weighted]
      rfl

/-! ## The main theorem -/

/-- A resolution that overruns its deadline finds nothing; any other ends as the run does. -/
theorem resolve_cases (task : Task α) (deadline : Option Float) :
    (task.run.Overruns deadline ∧ (resolve task deadline).winner = none) ∨
      (¬ task.run.Overruns deadline ∧ resolve task deadline = task.run.outcome) := by
  unfold resolve
  exact within_cases task.run deadline

/-- Other weights change nothing that a resolution hands out but the stability. -/
theorem resolve_weighted (task : Task α) (weights : Settings.Blend α) (deadline : Option Float) :
    (resolve (task.weighted weights) deadline).winner.map
        (fun c => (c.selector, c.tier, c.confidence)) =
      (resolve task deadline).winner.map fun c => (c.selector, c.tier, c.confidence) := by
  have hoverruns : (task.weighted weights).run.Overruns deadline ↔ task.run.Overruns deadline := by
    rw [Run.Overruns, Run.Overruns, steps_weighted]
  rcases resolve_cases task deadline with ⟨hover, hnone⟩ | ⟨hfree, houtcome⟩
  · rcases resolve_cases (task.weighted weights) deadline with ⟨-, hnone'⟩ | ⟨hfree, -⟩
    · rw [hnone, hnone']
    · exact absurd (hoverruns.mpr hover) hfree
  · rcases resolve_cases (task.weighted weights) deadline with ⟨hover, -⟩ | ⟨-, houtcome'⟩
    · exact absurd (hoverruns.mp hover) hfree
    · obtain ⟨winner, hwinner, hother⟩ := winner_weighted task weights
      rw [houtcome, houtcome', hwinner, hother, Option.map_map, Option.map_map]
      rfl

/-- What an outcome with a winner hands to the anchor. -/
theorem finding?_of_winner {outcome : Outcome Float} {c : Candidate Float}
    (h : outcome.winner = some c) :
    outcome.finding? = some
      { selector := c.selector
        confidence := .float c.confidence
        hash := c.hash
        range := (c.lines.map fun (first, last) =>
          [("start", Json.int first), ("end", Json.int last)]).getD []
        snippet := c.snippet } := by
  rw [Outcome.finding?, h, Option.map_some]
  cases c.lines <;> rfl

end Mooring.Resolution
