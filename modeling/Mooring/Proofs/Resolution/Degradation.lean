import Mooring.Proofs.Resolution.Deadline
import Mooring.Proofs.Stability

/-!
# A failure costs no more than its own tier

A resolution depends on an indexer that may fail or take too long at any call, and on a page that
may do so at any question.  None of this ends the run: it always comes to its closing reason
(`closes_outcome`), and there is a percentage to put into it.  When the stored selector is not
alive, each of the three searching tiers has a turn (`Task.turns`).  A turn gives exactly one
reason, whatever becomes of its work; and if its work fails or takes too long (`Turn.Breaks`),
nothing in the list of candidates comes from it.

The list is followed through the turns by the tiers of its candidates: they are the stored selector,
and what the turns came up with that did not break (`supplied_outcome`).
-/

namespace Mooring.Resolution

open Mooring.Decimal Mooring.Markup

variable {α : Type}

/-! ## Turns -/

/-- A searching tier has its turn: the record before it, and the work that it does. -/
structure Turn (α : Type) where
  tier : Tier
  before : Trace α
  work : Work α

namespace Turn

/-- The step of a turn. -/
def step (task : Task α) (turn : Turn α) : Step α :=
  tierStep task turn.tier turn.before turn.work

/-- The work of a turn takes longer than the budget of the tier, or fails. -/
def Breaks (task : Task α) (turn : Turn α) : Prop :=
  millis (task.budgets.ms turn.tier.stage) < turn.work.cost ∨ ∃ e, turn.work.result = .error e

/-- What a turn says: why it broke, or what its work says. -/
def message (task : Task α) (turn : Turn α) : String :=
  let overdue := "timed out after " ++ millisText (task.budgets.ms turn.tier.stage)
  if turn.work.inTime task turn.tier then
    match turn.work.result with
    | .ok found => found.message
    | .error e => e.account overdue
  else overdue

/-- The reason that a turn gives. -/
def reason (task : Task α) (turn : Turn α) : String :=
  turn.tier.label ++ ": " ++ turn.message task

/-- The turn calls the indexer once at most, and breaks if that call fails or takes too long. -/
def Relies (task : Task α) (turn : Turn α) : Prop :=
  turn.work.calls = [] ∨ ∃ text lineOffset, turn.work.calls = [⟨text.length, lineOffset⟩] ∧
    let indexing := task.indexer turn.before.indexed.length text lineOffset
    ((∃ e, indexing.result = .error e) ∨
      millis (task.budgets.ms turn.tier.stage) < indexing.cost) → turn.Breaks task

/-- The index that attribute match leaves to full structural, if it made one in time. -/
def left (task : Task α) (turn : Turn α) : Option Index :=
  if turn.work.inTime task .attributeMatch then turn.work.index else none

/-- What the work comes up with has the name of the tier. -/
def Signs (turn : Turn α) : Prop :=
  ∀ found, turn.work.result = .ok found → ∀ c ∈ found.candidates, c.tier = turn.tier

variable {task : Task α} {turn : Turn α}

/-- **A turn adds one reason to the record**, whatever becomes of its work. -/
theorem reasons_step (task : Task α) (turn : Turn α) :
    (turn.step task).done.reasons = turn.before.reasons ++ [turn.reason task] := by
  unfold step reason message tierStep
  dsimp only
  split
  · cases turn.work.result <;> rfl
  · rfl

theorem isAccount_reason (task : Task α) (turn : Turn α) :
    IsAccount turn.tier.label (turn.reason task) :=
  ⟨turn.message task, rfl⟩

/-- A turn that breaks leaves the candidates as they were. -/
theorem candidates_of_breaks (h : turn.Breaks task) :
    (turn.step task).done.candidates = turn.before.candidates := by
  unfold step tierStep
  dsimp only
  split
  next htime =>
    rcases h with hlate | ⟨e, he⟩
    · exact absurd htime (by simpa [Work.inTime] using hlate)
    · rw [he]
      rfl
  next => rfl

/-- What is new after a turn comes from its tier. -/
theorem tier_of_mem_step (hsigns : turn.Signs) {c : Candidate α}
    (h : c ∈ (turn.step task).done.candidates) :
    c.tier ∈ turn.before.candidates.map (·.tier) ∨ c.tier = turn.tier := by
  unfold step tierStep at h
  dsimp only at h
  split at h
  · cases hresult : turn.work.result with
    | error e =>
      rw [hresult] at h
      exact Or.inl (List.mem_map_of_mem h)
    | ok found =>
      rw [hresult] at h
      have hmem := (tiers_addCandidates _ _).subset (List.mem_map_of_mem h)
      rw [List.map_append] at hmem
      rcases List.mem_append.mp hmem with hold | hnew
      · exact Or.inl hold
      · obtain ⟨d, hd, hdc⟩ := List.mem_map.mp hnew
        exact Or.inr (hdc ▸ hsigns found hresult d hd)
  · exact Or.inl (List.mem_map_of_mem h)

end Turn

/-! ## The three turns of a run -/

section

variable [Scalar α]

/-- The turn of fast structural, once the stored selector is known not to be alive. -/
def Task.fastTurn (task : Task α) : Turn α :=
  { tier := .fastStructural
    before := task.begun
    work := fastStructural task (.ofSelector task.anchor.selector) task.begun.indexed.length }

/-- The turn of attribute match. -/
def Task.matchTurn (task : Task α) : Turn α :=
  let before := (task.fastTurn.step task).done
  { tier := .attributeMatch
    before
    work := attributeMatch task (.ofSelector task.anchor.selector) (task.parsed.bind (·.2))
      before.indexed.length }

/-- The turn of full structural. -/
def Task.fullTurn (task : Task α) : Turn α :=
  let before := (task.matchTurn.step task).done
  { tier := .fullStructural
    before
    work := fullStructural task (.ofSelector task.anchor.selector) (task.matchTurn.left task)
      before.indexed.length }

/-- The turns of the searching tiers in a run whose stored selector is not alive. -/
def Task.turns (task : Task α) : List (Turn α) :=
  [task.fastTurn, task.matchTurn, task.fullTurn]

/-- The turns are the searching part of a run. -/
theorem searchSteps_eq_turns (task : Task α) :
    searchSteps task (task.parsed.bind (·.2)) task.begun = task.turns.map (·.step task) := by
  unfold searchSteps Task.turns Task.fullTurn Turn.left Task.matchTurn Task.fastTurn Turn.step
  simp only [List.map_cons, List.map_nil]

/-- The searching tiers, in the order in which they run. -/
def searchTiers : List Tier :=
  [.fastStructural, .attributeMatch, .fullStructural]

theorem tiers_turns (task : Task α) : task.turns.map (·.tier) = searchTiers := rfl

end

/-- Turns from one record to another: each begins where the one before it ended. -/
inductive InTurn (task : Task α) : Trace α → List (Turn α) → Trace α → Prop
  | nil {t : Trace α} : InTurn task t [] t
  | cons {before after : Trace α} {turn : Turn α} {rest : List (Turn α)} :
      turn.before = before → InTurn task (turn.step task).done rest after →
      InTurn task before (turn :: rest) after

namespace InTurn

variable {task : Task α} {before after : Trace α} {turns : List (Turn α)}

/-- **Turns give one reason each, in their order.** -/
theorem reasons (h : InTurn task before turns after) :
    after.reasons = before.reasons ++ turns.map (·.reason task) := by
  induction h with
  | nil => exact (List.append_nil _).symm
  | @cons before after turn rest hbefore _ ih =>
    rw [ih, turn.reasons_step, hbefore, List.append_assoc, List.map_cons, List.singleton_append]

/-- **What is new after some turns comes from one that did not break.** -/
theorem candidates (h : InTurn task before turns after) (hsigns : ∀ turn ∈ turns, turn.Signs)
    {c : Candidate α} (hc : c ∈ after.candidates) :
    c.tier ∈ before.candidates.map (·.tier) ∨
      ∃ turn ∈ turns, c.tier = turn.tier ∧ ¬turn.Breaks task := by
  induction h with
  | nil => exact Or.inl (List.mem_map_of_mem hc)
  | @cons before after turn rest hbefore _ ih =>
    obtain ⟨hfirst, hrest⟩ := List.forall_mem_cons.mp hsigns
    rcases ih hrest hc with hold | ⟨later, hlater, hfrom⟩
    · obtain ⟨d, hd, hdc⟩ := List.mem_map.mp hold
      rw [← hbefore]
      by_cases hbreaks : turn.Breaks task
      · rw [Turn.candidates_of_breaks hbreaks] at hd
        exact Or.inl (List.mem_map.mpr ⟨d, hd, hdc⟩)
      · rcases Turn.tier_of_mem_step hfirst hd with hold | hnew
        · exact Or.inl (hdc ▸ hold)
        · exact Or.inr ⟨turn, List.mem_cons_self, hdc.symm.trans hnew, hbreaks⟩
    · exact Or.inr ⟨later, List.mem_cons_of_mem _ hlater, hfrom⟩

end InTurn

theorem tier_probed (task : Task α) (c : Candidate α) : (task.probed c).tier = c.tier := by
  unfold Task.probed
  split <;> rfl

section

variable [Scalar α]

theorem mem_turns {task : Task α} {turn : Turn α} (h : turn ∈ task.turns) :
    turn = task.fastTurn ∨ turn = task.matchTurn ∨ turn = task.fullTurn := by
  simpa [Task.turns] using h

theorem searched_eq (task : Task α) : task.searched = (task.fullTurn.step task).done := by
  have hsearched : task.searched = lastTrace task.begun
      (searchSteps task (task.parsed.bind (·.2)) task.begun) := by
    unfold Task.searched Task.begun Task.parsed
    rfl
  rw [hsearched, searchSteps_eq_turns]
  rfl

theorem inTurn_turns (task : Task α) : InTurn task task.begun task.turns task.searched := by
  rw [searched_eq]
  exact .cons rfl (.cons rfl (.cons rfl .nil))

theorem Task.Makes.tier {task : Task α} {features : List Feature} {tier : Tier} {c : Candidate α}
    (h : task.Makes features tier c) : c.tier = tier := by
  obtain ⟨index, -, node, -, selector, rfl⟩ := h
  rfl

theorem signs_fastStructural (task : Task α) (shape : Selector.Shape) (before : Trace α)
    (earlier : Nat) : Turn.Signs ⟨.fastStructural, before, fastStructural task shape earlier⟩ :=
  fun _ hfound c hc => Task.Makes.tier (makes_fastStructural hfound c hc)

theorem signs_attributeMatch (task : Task α) (shape : Selector.Shape) (node : Option Node)
    (before : Trace α) (earlier : Nat) :
    Turn.Signs ⟨.attributeMatch, before, attributeMatch task shape node earlier⟩ :=
  fun _ hfound c hc => (makes_attributeMatch hfound c hc).tier

theorem signs_fullStructural {task : Task α} (shape : Selector.Shape) {cached : Option Index}
    (hcached : ∀ index, cached = some index → task.ReadsWhole index) (before : Trace α)
    (earlier : Nat) :
    Turn.Signs ⟨.fullStructural, before, fullStructural task shape cached earlier⟩ :=
  fun _ hfound c hc => (makes_fullStructural hcached hfound c hc).tier

theorem reads_matchTurn {task : Task α} {index : Index}
    (h : task.matchTurn.left task = some index) : task.ReadsWhole index := by
  unfold Turn.left at h
  split at h
  · unfold Task.matchTurn at h
    dsimp only at h
    exact reads_attributeMatch h
  · exact absurd h (by simp)

theorem signs_turns (task : Task α) : ∀ turn ∈ task.turns, turn.Signs := by
  intro turn hturn
  rcases mem_turns hturn with rfl | rfl | rfl
  · exact signs_fastStructural task _ _ _
  · exact signs_attributeMatch task _ _ _ _
  · exact signs_fullStructural _ (fun _ => reads_matchTurn) _ _

/-! ## What a turn relies on -/

variable {task : Task α}

theorem relies_fastStructural (shape : Selector.Shape) (before : Trace α) :
    Turn.Relies task
      ⟨.fastStructural, before, fastStructural task shape before.indexed.length⟩ := by
  unfold Turn.Relies Turn.Breaks fastStructural
  dsimp only
  split
  · exact Or.inl rfl
  · split
    · exact Or.inl rfl
    · split
      · exact Or.inl rfl
      · refine Or.inr ⟨_, _, rfl, ?_⟩
        rintro (⟨e, he⟩ | hlate)
        · exact Or.inr ⟨e, by rw [he]; rfl⟩
        · exact Or.inl hlate

theorem relies_attributeMatch (shape : Selector.Shape) (node : Option Node) (before : Trace α) :
    Turn.Relies task
      ⟨.attributeMatch, before, attributeMatch task shape node before.indexed.length⟩ := by
  unfold Turn.Relies Turn.Breaks attributeMatch
  dsimp only
  split
  · exact Or.inl rfl
  · refine Or.inr ⟨_, _, rfl, ?_⟩
    rintro (⟨e, he⟩ | hlate)
    · exact Or.inr ⟨e, by rw [he]; rfl⟩
    · exact Or.inl hlate

theorem relies_fullStructural (shape : Selector.Shape) (cached : Option Index) (before : Trace α) :
    Turn.Relies task
      ⟨.fullStructural, before, fullStructural task shape cached before.indexed.length⟩ := by
  unfold Turn.Relies Turn.Breaks fullStructural
  dsimp only
  split
  · exact Or.inl rfl
  · cases cached with
    | some index =>
      refine Or.inl ?_
      dsimp only
      split <;> rfl
    | none =>
      refine Or.inr ⟨task.source, 0, ?_, ?_⟩
      · dsimp only
        split
        · rfl
        · split <;> rfl
      · dsimp only
        rintro (⟨e, he⟩ | hlate)
        · exact Or.inr ⟨e, by rw [he]⟩
        · refine Or.inl ?_
          split
          · exact hlate
          · split
            · exact hlate
            · exact lt_of_lt_of_le hlate (le_add_of_nonneg_right (scanReach_nonneg _ _ _))

theorem relies_turns (task : Task α) : ∀ turn ∈ task.turns, turn.Relies task := by
  intro turn hturn
  rcases mem_turns hturn with rfl | rfl | rfl
  · exact relies_fastStructural _ _
  · exact relies_attributeMatch _ _ _
  · exact relies_fullStructural _ _ _

/-! ## The whole run -/

/-- The stages other than the searching tiers. -/
def otherStages : List String :=
  [Tier.storedSelector.label, parseLabel, probeLabel, "result"]

/-- The reasons of a run whose stored selector is not alive: those of the turns, and others before
and after them. -/
theorem reasons_of_search {task : Task α} (h : task.storedVisit.verdict.liveness ≠ .alive) :
    ∃ early late, task.run.outcome.trace.reasons =
        early ++ task.turns.map (·.reason task) ++ late ∧
      ∀ reason ∈ early ++ late, ∃ stage ∈ otherStages, IsAccount stage reason := by
  obtain ⟨first, hfirst, hbegun⟩ := follows_begun task
  obtain ⟨last, hlast, hprobed⟩ := follows_searched task
  obtain ⟨early, hearly, hearlier⟩ := hbegun.grows.reasons
  obtain ⟨late, hlate, hlater⟩ := (hprobed.grows.trans (grows_searchOutcome task _)).reasons
  obtain rfl : task.begun.reasons = early := hearly
  refine ⟨task.begun.reasons, late, ?_, fun reason hreason => ?_⟩
  · rw [outcome_of_not_alive h, hlate, (inTurn_turns task).reasons]
  · rcases List.mem_append.mp hreason with hreason | hreason
    · obtain ⟨stage, hstage, haccount⟩ := hearlier.exists_stage hreason
      have hsub : [Tier.storedSelector.label, parseLabel] ⊆ otherStages := by simp [otherStages]
      exact ⟨stage, hsub (hfirst hstage), haccount⟩
    · obtain ⟨stage, hstage, haccount⟩ := hlater.exists_stage hreason
      have hsub : [probeLabel] ++ ["result"] ⊆ otherStages := by simp [otherStages]
      refine ⟨stage, hsub ?_, haccount⟩
      exact List.append_subset.mpr ⟨List.subset_append_of_subset_left _ hlast,
        List.subset_append_right _ _⟩ hstage

/-- Reasons picked by something that no other stage's reason has are picked among those of the
turns. -/
theorem filter_reasons {task : Task α} (h : task.storedVisit.verdict.liveness ≠ .alive)
    {p : String → Bool}
    (hp : ∀ stage ∈ otherStages, ∀ reason, IsAccount stage reason → p reason = false) :
    task.run.outcome.trace.reasons.filter p = (task.turns.map (·.reason task)).filter p := by
  obtain ⟨early, late, hreasons, hothers⟩ := reasons_of_search h
  have hnone : ∀ reason ∈ early ++ late, ¬p reason = true := by
    intro reason hreason
    obtain ⟨stage, hstage, haccount⟩ := hothers reason hreason
    rw [hp stage hstage reason haccount]
    exact Bool.false_ne_true
  obtain ⟨hearly, hlate⟩ := List.forall_mem_append.mp hnone
  rw [hreasons, List.filter_append, List.filter_append, List.filter_eq_nil_iff.mpr hearly,
    List.filter_eq_nil_iff.mpr hlate, List.nil_append, List.append_nil]

/-- The names of the searching tiers are not those of any other stage. -/
theorem label_search :
    ∀ tier ∈ searchTiers, tier.label ∈ stageNames ∧ tier.label ∉ otherStages := by
  decide

theorem otherStages_subset : otherStages ⊆ stageNames := by decide

theorem label_injective : ∀ a b : Tier, a.label = b.label → a = b := by
  intro a b
  cases a <;> cases b <;> decide

theorem tier_mem_search {task : Task α} {turn : Turn α} (h : turn ∈ task.turns) :
    turn.tier ∈ searchTiers :=
  tiers_turns task ▸ List.mem_map_of_mem h

/-- Whether a turn's reason is about a searching tier shows in its tier. -/
theorem isAbout_reason {task : Task α} {turn : Turn α} (h : turn ∈ task.turns) {tier : Tier}
    (htier : tier ∈ searchTiers) :
    isAbout tier.label (turn.reason task) = true ↔ turn.tier = tier := by
  rw [(turn.isAccount_reason task).isAbout_iff (label_search _ (tier_mem_search h)).1
    (label_search _ htier).1]
  exact ⟨label_injective _ _, congrArg Tier.label⟩

theorem not_isAbout_other {stage reason : String} (hstage : stage ∈ otherStages)
    (h : IsAccount stage reason) {tier : Tier} (htier : tier ∈ searchTiers) :
    isAbout tier.label reason = false := by
  obtain ⟨hname, hother⟩ := label_search tier htier
  refine Bool.eq_false_iff.mpr fun habout => hother ?_
  rw [← (h.isAbout_iff (otherStages_subset hstage) hname).mp habout]
  exact hstage

/-- The reason begins with the name of a searching tier. -/
def isOfSearch (reason : String) : Bool :=
  searchTiers.any fun tier => isAbout tier.label reason

/-- **The searching tiers give their reasons in order.** -/
theorem reasons_ofSearch {task : Task α} (h : task.storedVisit.verdict.liveness ≠ .alive) :
    task.run.outcome.trace.reasons.filter isOfSearch = task.turns.map (·.reason task) := by
  rw [filter_reasons h fun stage hstage reason haccount => ?_]
  · refine List.filter_eq_self.mpr fun reason hreason => ?_
    obtain ⟨turn, hturn, rfl⟩ := List.mem_map.mp hreason
    have htier := tier_mem_search hturn
    exact List.any_eq_true.mpr ⟨turn.tier, htier, (isAbout_reason hturn htier).mpr rfl⟩
  · refine List.any_eq_false.mpr fun tier htier => ?_
    rw [not_isAbout_other hstage haccount htier]
    exact Bool.false_ne_true

theorem turns_of_tier {task : Task α} {turn : Turn α} (h : turn ∈ task.turns) :
    task.turns.filter (fun other => other.tier = turn.tier) = [turn] := by
  rcases mem_turns h with rfl | rfl | rfl <;> rfl

/-- **Each searching tier gives one reason.** -/
theorem reasons_ofTurn {task : Task α} (h : task.storedVisit.verdict.liveness ≠ .alive)
    {turn : Turn α} (hturn : turn ∈ task.turns) :
    task.run.outcome.trace.reasons.filter (isAbout turn.tier.label) = [turn.reason task] := by
  have htier := tier_mem_search hturn
  have hsame : task.turns.filter (isAbout turn.tier.label ∘ (·.reason task)) =
      task.turns.filter fun other => other.tier = turn.tier := by
    refine List.filter_congr fun other hother => ?_
    rw [Bool.eq_iff_iff, decide_eq_true_iff]
    exact isAbout_reason hother htier
  rw [filter_reasons h fun stage hstage reason haccount => not_isAbout_other hstage haccount htier,
    List.filter_map, hsame, turns_of_tier hturn]
  rfl

/-- When the searching tiers begin, the list holds the stored selector. -/
theorem candidates_begun (task : Task α) : task.begun.candidates = [task.stored] := by
  unfold Task.begun
  cases hparsed : task.parsed with
  | none => exact storedStep_candidates task
  | some parsed => exact (parseStep_candidates hparsed).trans (storedStep_candidates task)

/-- **What the list of a run holds beside the stored selector comes from turns that did not
break.** -/
theorem supplied_outcome {task : Task α} (h : task.storedVisit.verdict.liveness ≠ .alive) :
    ∀ c ∈ task.run.outcome.trace.candidates, c.tier = .storedSelector ∨
      ∃ turn ∈ task.turns, c.tier = turn.tier ∧ ¬turn.Breaks task := by
  intro c hc
  rw [outcome_of_not_alive h, (searchOutcome_eq task _).1, probeStep_candidates] at hc
  obtain ⟨d, hd, rfl⟩ := List.mem_map.mp hc
  obtain ⟨e, he, rfl⟩ := List.mem_map.mp hd
  have htier : ((task.probed e).rated task.weights task.prefer).tier = e.tier := tier_probed task e
  rw [htier]
  rcases (inTurn_turns task).candidates (signs_turns task) he with hbegun | hturn
  · rw [candidates_begun] at hbegun
    exact Or.inl (List.mem_singleton.mp hbegun)
  · exact Or.inr hturn

/-- A turn that breaks supplies nothing. -/
theorem none_of_breaks {task : Task α} (h : task.storedVisit.verdict.liveness ≠ .alive)
    {turn : Turn α} (hturn : turn ∈ task.turns) (hbreaks : turn.Breaks task) :
    ∀ c ∈ task.run.outcome.trace.candidates, c.tier ≠ turn.tier := by
  intro c hc htier
  rcases supplied_outcome h c hc with hstored | ⟨other, hother, hfrom, hkeeps⟩
  · have hsearch := tier_mem_search hturn
    rw [← htier, hstored] at hsearch
    exact absurd hsearch (by decide)
  · -- No two turns have the same tier, so the candidate comes from the one that breaks.
    have hsame : other ∈ task.turns.filter fun t => t.tier = turn.tier :=
      List.mem_filter.mpr ⟨hother, decide_eq_true (hfrom.symm.trans htier)⟩
    rw [turns_of_tier hturn] at hsame
    rw [List.mem_singleton.mp hsame] at hkeeps
    exact hkeeps hbreaks

/-- A run that nothing cuts off comes to its closing reason. -/
theorem closes_outcome (task : Task α) :
    task.run.outcome.timedOut = false ∧
      ∃ told closing, task.run.outcome.trace.reasons = told ++ [closing] ∧
        (IsAccount Tier.storedSelector.label closing ∨ IsAccount "result" closing) := by
  by_cases halive : task.storedVisit.verdict.liveness = .alive
  · rw [outcome_eq_storedOutcome halive]
    exact ⟨rfl, _, _, rfl, Or.inl ⟨_, rfl⟩⟩
  · rw [outcome_of_not_alive halive]
    unfold searchOutcome
    dsimp only
    split <;> exact ⟨rfl, _, _, rfl, Or.inr ⟨_, rfl⟩⟩

/-- Whatever a run ends with has been rated. -/
theorem rated_outcome (task : Task α) : ∀ c ∈ task.run.outcome.trace.candidates,
    ∃ d : Candidate α, c = d.rated task.weights task.prefer := by
  have hrate : ∀ t : Trace α, ∀ c ∈ (task.rate t).candidates,
      ∃ d : Candidate α, c = d.rated task.weights task.prefer := by
    intro t c hc
    obtain ⟨d, -, rfl⟩ := List.mem_map.mp hc
    exact ⟨d, rfl⟩
  by_cases halive : task.storedVisit.verdict.liveness = .alive
  · rw [outcome_eq_storedOutcome halive]
    exact hrate _
  · rw [outcome_of_not_alive halive, (searchOutcome_eq task _).1]
    exact hrate _

end

/-- A resolution in which almost everything breaks: the page fails, the stored fragment cannot be
indexed, fast structural takes too long, and attribute match cannot index the source.  Only the
fourth call of the indexer comes to something. -/
def Task.failing : Task Float :=
  { anchor :=
      { id := "a", selector := "#a", updatedAt := "", snippet := some "<p>go</p>"
        range := some
          { first := 1, last := 1, one_le_first := by decide, first_le_last := by decide }
        hint := some { testid := some "x" } }
    source := "<p>go</p>"
    page := fun _ => ⟨0, .failure "Error" "lost"⟩
    budgets := ⟨fun _ => 100⟩
    weights := Settings.Blend.defaultWeights
    indexer := fun earlier _ _ =>
      match earlier with
      | 1 => ⟨500, .ok { nodes := [] }⟩
      | 3 => ⟨0, .ok { nodes := [
          { tag := "p", attrs := [("id", "b")], text := "go", fragment := "<p>go</p>", line := 1
            endLine := 1, order := 0, hasChildren := false }] }⟩
      | _ => ⟨0, .error (.raised "broken")⟩ }

end Mooring.Resolution
