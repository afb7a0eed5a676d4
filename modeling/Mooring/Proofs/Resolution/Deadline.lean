import Mooring.Proofs.Resolution.Growth

/-!
# A deadline shows the beginning of a run

A run takes as long as its steps do together.  A deadline after that is not noticed: the resolution
ends as it does without one.  A deadline before that aborts it, wherever it strikes, in the middle
of a question to the page, of a parse, of a tier, or of many questions at once.  Then nothing is
found, and the record is the beginning of what the whole run would have recorded, with one reason
more that says so (`resolve_deadline`).

Only the first half needs that time does not run backwards (`Task.Timely`): no stretch of a run then
takes longer than all of it.  The second half is the growth of records (`Follows.cutOff?`).
-/

namespace Mooring.Resolution

open Mooring.Decimal Mooring.Settings

variable {α : Type}

/-! ## Time passes -/

/-- Nothing that a resolution waits for takes less than no time, and each budget is a finite number
above zero. -/
structure Task.Timely (task : Task α) : Prop where
  page : ∀ selector, 0 ≤ (task.page selector).delay
  indexer : ∀ earlier text lineOffset, 0 ≤ (task.indexer earlier text lineOffset).cost
  budgets : ∀ stage, isUsable (task.budgets.ms stage) = true

theorem millis_nonneg {ms : Float} (h : isUsable ms = true) : 0 ≤ millis ms := by
  unfold isUsable at h
  unfold millis Scalar.ofFloat
  cases hparts : Decimal.parts ms with
  | finite negative num den =>
    rw [hparts] at h
    obtain ⟨hsign, -⟩ := Bool.and_eq_true_iff.mp h
    obtain rfl : negative = false := by simpa using hsign
    exact Rat.mkRat_nonneg (Int.natCast_nonneg num) den
  | _ =>
    rw [hparts] at h
    exact absurd h (by simp)

theorem cost_visit_nonneg {p : Probing} (h : 0 ≤ p.delay) (timeout : Float) :
    0 ≤ (p.visit timeout).cost := by
  unfold Probing.visit
  dsimp only
  split
  · exact le_refl 0
  · split
    · exact le_of_lt (not_le.mp ‹_›)
    · exact h

theorem longest_nonneg (times : List Rat) : 0 ≤ longest times := by
  cases times with
  | nil => exact le_refl 0
  | cons t rest => exact le_trans (longest_nonneg rest) (le_max_right _ _)

theorem scanReach_nonneg (budget clockCost : Rat) (count : Nat) :
    0 ≤ (scanReach budget clockCost count).2 := by
  unfold scanReach
  split
  · exact le_refl 0
  · have hcost : 0 ≤ clockCost := le_of_lt (not_le.mp ‹_›)
    dsimp only
    split <;> positivity

section

variable {task : Task α}

theorem Task.Timely.parseStep (h : task.Timely) {before : Trace α} {step : Step α}
    {node : Option Markup.Node} (hstep : parseStep task before = some (step, node)) :
    0 ≤ step.cost := by
  obtain ⟨snippet, -, hparsed⟩ := Option.map_eq_some_iff.mp hstep
  obtain rfl : _ = step := congrArg Prod.fst hparsed
  have hindexing := h.indexer before.indexed.length snippet 0
  dsimp only
  split
  · exact millis_nonneg (h.budgets _)
  · split
    · exact hindexing
    · split <;> exact hindexing

theorem Task.Timely.tierStep (h : task.Timely) (tier : Tier) (before : Trace α) {work : Work α}
    (hwork : 0 ≤ work.cost) : 0 ≤ (tierStep task tier before work).cost := by
  unfold Resolution.tierStep
  dsimp only
  split
  · exact hwork
  · exact millis_nonneg (h.budgets _)

variable [Scalar α]

theorem Task.Timely.fastStructural (h : task.Timely) (shape : Selector.Shape) (earlier : Nat) :
    0 ≤ (fastStructural task shape earlier).cost := by
  unfold Resolution.fastStructural
  split
  · exact le_refl 0
  · split
    · exact le_refl 0
    · dsimp only
      split
      · exact le_refl 0
      · exact h.indexer _ _ _

theorem Task.Timely.attributeMatch (h : task.Timely) (shape : Selector.Shape)
    (node : Option Markup.Node) (earlier : Nat) :
    0 ≤ (attributeMatch task shape node earlier).cost := by
  unfold Resolution.attributeMatch
  dsimp only
  split
  · exact le_refl 0
  · exact h.indexer _ _ _

theorem Task.Timely.fullStructural (h : task.Timely) (shape : Selector.Shape)
    (cached : Option Markup.Index) (earlier : Nat) :
    0 ≤ (fullStructural task shape cached earlier).cost := by
  have hscan : ∀ {cost : Rat} {count : Nat}, 0 ≤ cost →
      0 ≤ cost + (scanReach (millis (task.budgets.ms .snippetMatch)) task.clockCost count).2 :=
    fun hcost => add_nonneg hcost (scanReach_nonneg _ _ _)
  unfold Resolution.fullStructural
  split
  · exact le_refl 0
  · -- The index is the one that attribute match left, or it is made here.
    cases cached with
    | some index =>
      dsimp only
      split
      · exact le_refl 0
      · exact hscan (le_refl 0)
    | none =>
      have hindexing := h.indexer earlier task.source 0
      dsimp only
      split
      · exact hindexing
      · split
        · exact hindexing
        · exact hscan hindexing

/-- **No step of a run takes less than no time.** -/
theorem Task.Timely.steps (h : task.Timely) : ∀ step ∈ task.run.steps, 0 ≤ step.cost := by
  have hstored : 0 ≤ (storedStep task).cost := cost_visit_nonneg (h.page _) _
  by_cases halive : task.storedVisit.verdict.liveness = .alive
  · rw [steps_of_alive halive]
    intro step hstep
    rw [List.mem_singleton.mp hstep]
    exact hstored
  · rw [steps_of_not_alive halive]
    intro step hstep
    simp only [List.cons_append, List.mem_cons, List.mem_append, List.not_mem_nil,
      or_false] at hstep
    rcases hstep with rfl | (hparse | hsearch) | rfl
    · exact hstored
    · obtain ⟨parsed, hparsed, rfl⟩ := Option.map_eq_some_iff.mp (Option.mem_toList.mp hparse)
      exact h.parseStep hparsed
    · simp only [searchSteps, List.mem_cons, List.not_mem_nil, or_false] at hsearch
      rcases hsearch with rfl | rfl | rfl
      · exact h.tierStep _ _ (h.fastStructural _ _)
      · exact h.tierStep _ _ (h.attributeMatch _ _ _)
      · exact h.tierStep _ _ (h.fullStructural _ _ _)
    · exact longest_nonneg _

end

/-- The beginning of some steps takes no longer than all of them. -/
theorem totalCost_take_le : ∀ (steps : List (Step α)), (∀ step ∈ steps, 0 ≤ step.cost) →
    ∀ n, totalCost (steps.take n) ≤ totalCost steps := by
  intro steps
  induction steps with
  | nil =>
    intro _ n
    rw [List.take_nil]
  | cons step rest ih =>
    intro hsteps n
    obtain ⟨hstep, hrest⟩ := List.forall_mem_cons.mp hsteps
    cases n with
    | zero =>
      have hnone := ih hrest 0
      rw [List.take_zero, totalCost] at hnone
      rw [List.take_zero, totalCost, totalCost]
      exact add_nonneg hstep hnone
    | succ n =>
      rw [List.take_succ_cons, totalCost, totalCost]
      exact add_le_add_right (ih hrest n) _

/-! ## The deadline -/

/-- In a record that grew from nothing, no stage's reason is about the deadline. -/
theorem not_isAbout_deadline {t : Trace α} {told : List String} (h : ({} : Trace α).Grows told t)
    (htold : told ⊆ runStages) : ∀ reason ∈ t.reasons, isAbout "deadline" reason = false := by
  obtain ⟨given, hgiven, haccounts⟩ := h.reasons
  obtain rfl : t.reasons = given := hgiven
  have hstages : told ⊆ stageNames := List.Subset.trans htold (List.subset_append_left _ _)
  refine haccounts.not_isAbout hstages (by simp [stageNames]) fun hmem => ?_
  exact absurd (htold hmem) (by decide)

section

variable [Scalar α]

/-- A deadline that a run stays within is not noticed. -/
theorem resolve_of_long {task : Task α} (h : task.Timely) {d : Float}
    (hlong : totalCost task.run.steps < millis d) : resolve task (some d) = resolve task none := by
  have hparts := totalCost_take_le _ h.steps
  rcases resolve_cases task (some d) with ⟨⟨e, he, hover⟩, -⟩ | ⟨-, houtcome⟩
  · obtain rfl := Option.some.inj he
    rcases hover with hpast | ⟨n, hn⟩
    · have hnone := hparts 0
      rw [List.take_zero, totalCost] at hnone
      exact absurd hpast (not_le.mpr (lt_of_le_of_lt hnone hlong))
    · exact absurd (lt_of_le_of_lt (hparts n) hlong) (not_lt_of_gt hn)
  · exact houtcome

/-- A deadline that strikes on the way leaves what was recorded at some moment of the run. -/
theorem resolve_of_short {task : Task α} {d : Float} (hahead : 0 < millis d)
    (hshort : millis d < totalCost task.run.steps) :
    ∃ t told untold, resolve task (some d) = .expired d t ∧ ({} : Trace α).Grows told t ∧
      t.Grows untold (resolve task none).trace ∧ told ⊆ runStages := by
  have hcut : (cutOff? (millis d) task.run.steps).isSome :=
    (cutOff?_isSome_iff _ _ (le_of_lt hahead)).mpr
      ⟨task.run.steps.length, by rw [List.take_length]; exact hshort⟩
  obtain ⟨t, ht⟩ := Option.isSome_iff_exists.mp hcut
  obtain ⟨stages, last, closing, hsteps, hclosing, hstages⟩ := follows_run task
  obtain ⟨told, untold, rfl, htold, huntold⟩ := hsteps.cutOff? ht
  refine ⟨t, told, _, ?_, htold, huntold.trans hclosing, (List.append_subset.mp hstages).1⟩
  rw [resolve, Run.within, if_neg (not_le.mpr hahead), ht]

/-- The end of a resolution that a deadline aborted, beside the end of the whole run: nothing is
found, and the record is the beginning of the whole one, with one reason more. -/
structure Outcome.Aborts (cut whole : Outcome α) (d : Float) : Prop where
  selector : cut.selector? = none
  tier : cut.tier? = none
  confidence : cut.confidence = Scalar.zero
  timedOut : cut.timedOut = true
  reasons : ∃ kept, kept <+: whole.trace.reasons ∧
    (∀ reason ∈ kept, isAbout "deadline" reason = false) ∧
    cut.trace.reasons =
      kept ++ ["deadline: exceeded " ++ millisText d ++ ", resolution aborted"]
  selectors : cut.trace.candidates.map (·.selector) <+: whole.trace.candidates.map (·.selector)

end

/-- A resolution that asks a page about the stored selector for five milliseconds, and about another
one, which is alive, for five more. -/
def Task.slowTwice : Task Float :=
  { Task.proposingTwice with
    page := fun selector => ⟨5, .answer (selector == "[aria-label=\"go\"]") none⟩
    budgets := ⟨fun _ => 100⟩ }

theorem timely_slowTwice : Task.slowTwice.Timely :=
  ⟨fun _ => (by decide : (0 : Rat) ≤ 5), fun _ _ _ => le_refl (0 : Rat),
    fun _ => (by decide : isUsable 100 = true)⟩

end Mooring.Resolution
