import Mathlib.Data.List.Forall2
import Mooring.Proofs.Resolution.Arranged
import Mooring.Proofs.Text.Finding

/-!
# The record of a run grows

A run writes down what it does as it goes, and takes nothing back: a step appends the account of its
stage to the reasons, and new selectors to the list (`Step.Continues`).  So the record at one moment
is the beginning of the record at any later one (`Follows.grows`).  That is also so of the moment at
which a deadline strikes, because while a step is under way reasons and candidates are as they were
before it (`Follows.cutOff?`).

Every reason begins with the name of the stage that gives it, and no stage's name is the beginning
of another one's.  So how a reason begins tells whose it is (`IsAccount.isAbout_iff`).
-/

namespace Mooring.Resolution

open Mooring.Decimal Mooring.Markup Mooring.Text

variable {α : Type}

/-! ## Whose a reason is -/

/-- The reason is a stage's account: the stage's name, and a message. -/
def IsAccount (stage reason : String) : Prop :=
  ∃ message, reason = stage ++ ": " ++ message

/-- Each of some stages gave one of the reasons, in this order. -/
def Accounts (stages reasons : List String) : Prop :=
  List.Forall₂ IsAccount stages reasons

/-- The reason begins with the name of a stage. -/
def isAbout (stage reason : String) : Bool :=
  startsWith stage.toList reason.toList

/-- All that can give a reason in a run that nothing cuts off. -/
def runStages : List String :=
  [Tier.storedSelector.label, parseLabel, Tier.fastStructural.label, Tier.attributeMatch.label,
    Tier.fullStructural.label, probeLabel, "result"]

/-- All that can give a reason. -/
def stageNames : List String :=
  runStages ++ ["deadline"]

/-- No stage's name is the beginning of another one's. -/
theorem eq_of_prefix_stageNames :
    ∀ a ∈ stageNames, ∀ b ∈ stageNames, a.toList <+: b.toList → a = b := by
  decide

/-- **How a reason begins tells whose it is.** -/
theorem IsAccount.isAbout_iff {a b reason : String} (h : IsAccount a reason) (ha : a ∈ stageNames)
    (hb : b ∈ stageNames) : isAbout b reason = true ↔ a = b := by
  obtain ⟨message, rfl⟩ := h
  have hlead : a.toList <+: (a ++ ": " ++ message).toList := by
    rw [String.toList_append, String.toList_append, List.append_assoc]
    exact List.prefix_append _ _
  rw [isAbout, startsWith_iff]
  constructor
  · intro habout
    -- Two beginnings of one text: the shorter name is the beginning of the longer one.
    rcases List.prefix_or_prefix_of_prefix hlead habout with hab | hba
    · exact eq_of_prefix_stageNames a ha b hb hab
    · exact (eq_of_prefix_stageNames b hb a ha hba).symm
  · rintro rfl
    exact hlead

/-- Every reason is the account of one of the stages. -/
theorem Accounts.exists_stage {stages reasons : List String} (h : Accounts stages reasons)
    {reason : String} (hreason : reason ∈ reasons) : ∃ stage ∈ stages, IsAccount stage reason := by
  induction h with
  | nil => exact absurd hreason (by simp)
  | cons hfirst _ ih =>
    rcases List.mem_cons.mp hreason with rfl | hrest
    · exact ⟨_, List.mem_cons_self, hfirst⟩
    · obtain ⟨stage, hstage, haccount⟩ := ih hrest
      exact ⟨stage, List.mem_cons_of_mem _ hstage, haccount⟩

/-- No reason begins with the name of a stage that gave none. -/
theorem Accounts.not_isAbout {stages reasons : List String} (h : Accounts stages reasons)
    (hstages : stages ⊆ stageNames) {name : String} (hname : name ∈ stageNames)
    (hsilent : name ∉ stages) : ∀ reason ∈ reasons, isAbout name reason = false := by
  intro reason hreason
  obtain ⟨stage, hstage, haccount⟩ := h.exists_stage hreason
  have habout := haccount.isAbout_iff (hstages hstage) hname
  refine Bool.eq_false_iff.mpr fun htrue => hsilent ?_
  rw [← habout.mp htrue]
  exact hstage

/-! ## Records that grow -/

/-- From one record to another, some stages gave their reasons, and only new selectors came in. -/
structure Trace.Grows (stages : List String) (before after : Trace α) : Prop where
  reasons : ∃ given, after.reasons = before.reasons ++ given ∧ Accounts stages given
  selectors : before.candidates.map (·.selector) <+: after.candidates.map (·.selector)

namespace Trace.Grows

variable {stages more : List String} {t t' t'' : Trace α}

/-- Where reasons and candidates stay, no stage gave a reason. -/
theorem of_eq (hreasons : t'.reasons = t.reasons) (hcandidates : t'.candidates = t.candidates) :
    t.Grows [] t' := by
  refine ⟨⟨[], by rw [hreasons, List.append_nil], .nil⟩, ?_⟩
  rw [hcandidates]

theorem refl (t : Trace α) : t.Grows [] t :=
  of_eq rfl rfl

theorem trans (h : t.Grows stages t') (h' : t'.Grows more t'') : t.Grows (stages ++ more) t'' := by
  obtain ⟨given, hgiven, haccounts⟩ := h.reasons
  obtain ⟨given', hgiven', haccounts'⟩ := h'.reasons
  refine ⟨⟨given ++ given', ?_, List.rel_append haccounts haccounts'⟩,
    h.selectors.trans h'.selectors⟩
  rw [hgiven', hgiven, List.append_assoc]

/-- One stage gives its reason, and the selectors stay. -/
theorem note {stage message : String}
    (hreasons : t'.reasons = t.reasons ++ [stage ++ ": " ++ message])
    (hselectors : t.candidates.map (·.selector) <+: t'.candidates.map (·.selector)) :
    t.Grows [stage] t' :=
  ⟨⟨_, hreasons, .cons ⟨message, rfl⟩ .nil⟩, hselectors⟩

/-- What the record looks like matters only up to reasons and candidates. -/
theorem congr_left (h : t.Grows stages t'') (hreasons : t'.reasons = t.reasons)
    (hcandidates : t'.candidates = t.candidates) : t'.Grows stages t'' :=
  ⟨hreasons ▸ h.reasons, hcandidates ▸ h.selectors⟩

theorem prefix_reasons (h : t.Grows stages t') : t.reasons <+: t'.reasons := by
  obtain ⟨given, hgiven, -⟩ := h.reasons
  exact ⟨given, hgiven.symm⟩

end Trace.Grows

/-- A step goes on from a record: while it is under way nothing is added, and when it is done some
stages have given their reasons. -/
structure Step.Continues (stages : List String) (before : Trace α) (step : Step α) : Prop where
  reasons : step.during.reasons = before.reasons
  candidates : step.during.candidates = before.candidates
  done : before.Grows stages step.done

/-- Steps that follow each other from one record to another, and the stages that give reasons on the
way. -/
inductive Follows : Trace α → List String → List (Step α) → Trace α → Prop
  | nil {t : Trace α} : Follows t [] [] t
  | cons {before after : Trace α} {stages more : List String} {step : Step α}
      {rest : List (Step α)} : step.Continues stages before → Follows step.done more rest after →
      Follows before (stages ++ more) (step :: rest) after

namespace Follows

variable {before t after : Trace α} {stages more : List String} {steps steps' : List (Step α)}

theorem single {step : Step α} (h : step.Continues stages before) :
    Follows before stages [step] step.done := by
  have hsteps := Follows.cons h .nil
  rw [List.append_nil] at hsteps
  exact hsteps

theorem append (h : Follows before stages steps t) (h' : Follows t more steps' after) :
    Follows before (stages ++ more) (steps ++ steps') after := by
  induction h with
  | nil => exact h'
  | cons hstep _ ih =>
    rw [List.append_assoc]
    exact .cons hstep (ih h')

/-- **The record at the beginning is the beginning of the record at the end.** -/
theorem grows (h : Follows before stages steps after) : before.Grows stages after := by
  induction h with
  | nil => exact .refl _
  | cons hstep _ ih => exact hstep.done.trans ih

/-- **A deadline that strikes on the way leaves a record that grew up to then**, and that would have
gone on to grow. -/
theorem cutOff? (h : Follows before stages steps after) {left : Rat}
    (hcut : Resolution.cutOff? left steps = some t) :
    ∃ told untold, stages = told ++ untold ∧ before.Grows told t ∧ t.Grows untold after := by
  induction h generalizing left with
  | nil => exact absurd hcut (by simp [Resolution.cutOff?])
  | @cons before after stages more step rest hstep hrest ih =>
    rw [Resolution.cutOff?] at hcut
    split at hcut
    · -- The step is cut off, so its own reason is missing.
      have hreasons : t.reasons = before.reasons := by
        rw [← Option.some.inj hcut, Step.cutAfter]
        split <;> exact hstep.reasons
      have hcandidates : t.candidates = before.candidates := by
        rw [← Option.some.inj hcut, Step.cutAfter]
        split <;> exact hstep.candidates
      exact ⟨[], stages ++ more, rfl, .of_eq hreasons hcandidates,
        (hstep.done.trans hrest.grows).congr_left hreasons hcandidates⟩
    · obtain ⟨told, untold, rfl, hbefore, hafter⟩ := ih hcut
      exact ⟨stages ++ told, untold, (List.append_assoc ..).symm, hstep.done.trans hbefore, hafter⟩

end Follows

/-! ## The steps of a run -/

theorem selectors_addCandidates (known new : List (Candidate α)) :
    known.map (·.selector) <+: (addCandidates known new).map (·.selector) :=
  List.IsPrefix.map _ ( addCandidates_prefix new known)

/-- Indexing the stored fragment says something or nothing. -/
theorem continues_parseStep {task : Task α} {before : Trace α} {step : Step α}
    {node : Option Node} (h : parseStep task before = some (step, node)) :
    ∃ stages, (stages = [] ∨ stages = [parseLabel]) ∧ step.Continues stages before := by
  obtain ⟨snippet, -, hparsed⟩ := Option.map_eq_some_iff.mp h
  obtain rfl : _ = step := congrArg Prod.fst hparsed
  dsimp only
  split
  · exact ⟨_, Or.inr rfl, rfl, rfl, .note rfl List.prefix_rfl⟩
  · split
    · exact ⟨_, Or.inr rfl, rfl, rfl, .note rfl List.prefix_rfl⟩
    · split
      · exact ⟨_, Or.inl rfl, rfl, rfl, .of_eq rfl rfl⟩
      · exact ⟨_, Or.inr rfl, rfl, rfl, .note rfl List.prefix_rfl⟩

/-- A searching tier gives one reason, whatever becomes of its work. -/
theorem continues_tierStep (task : Task α) (tier : Tier) (before : Trace α) (work : Work α) :
    (tierStep task tier before work).Continues [tier.label] before := by
  unfold tierStep
  dsimp only
  split
  · cases work.result with
    | error e => exact ⟨rfl, rfl, .note rfl List.prefix_rfl⟩
    | ok found => exact ⟨rfl, rfl, .note rfl (selectors_addCandidates _ _)⟩
  · exact ⟨rfl, rfl, .note rfl List.prefix_rfl⟩

/-- A change to candidates that keeps the selector of each keeps the list of selectors. -/
theorem selectors_map {f : Candidate α → Candidate α} (hf : ∀ c, (f c).selector = c.selector)
    (candidates : List (Candidate α)) :
    candidates.map (·.selector) <+: (candidates.map f).map (·.selector) := by
  have hsame : (candidates.map f).map (·.selector) = candidates.map (·.selector) := by
    rw [List.map_map]
    exact List.map_congr_left fun c _ => hf c
  rw [hsame]

theorem selector_probed (task : Task α) (c : Candidate α) :
    (task.probed c).selector = c.selector := by
  unfold Task.probed
  split <;> rfl

/-- Asking about all candidates says how many are alive, if there were any to ask about. -/
theorem continues_probeStep (task : Task α) (before : Trace α) :
    ∃ stages, (stages = [] ∨ stages = [probeLabel]) ∧
      (probeStep task before).Continues stages before := by
  have hselectors := selectors_map (selector_probed task) before.candidates
  unfold probeStep
  dsimp only
  split
  · exact ⟨[], Or.inl rfl, rfl, rfl, ⟨[], (List.append_nil _).symm, .nil⟩, hselectors⟩
  · exact ⟨[probeLabel], Or.inr rfl, rfl, rfl, .note rfl hselectors⟩

section

variable [Scalar α]

/-- Asking about the stored selector says what came of it, unless it is alive. -/
theorem continues_storedStep (task : Task α) :
    ∃ stages, (stages = [] ∨ stages = [Tier.storedSelector.label]) ∧
      (storedStep task).Continues stages {} := by
  unfold storedStep
  dsimp only
  split
  · exact ⟨[], Or.inl rfl, rfl, rfl, ⟨[], rfl, .nil⟩, List.nil_prefix⟩
  · exact ⟨[Tier.storedSelector.label], Or.inr rfl, rfl, rfl, .note rfl List.nil_prefix⟩

/-- The three searching tiers give one reason each, in their order. -/
theorem follows_searchSteps (task : Task α) (node : Option Node) (before : Trace α) :
    Follows before
      [Tier.fastStructural.label, Tier.attributeMatch.label, Tier.fullStructural.label]
      (searchSteps task node before) (lastTrace before (searchSteps task node before)) :=
  .cons (continues_tierStep ..) (.cons (continues_tierStep ..) (.single (continues_tierStep ..)))

/-- What comes of the stored fragment, if there is one, when the stored selector is not alive. -/
def Task.parsed (task : Task α) : Option (Step α × Option Node) :=
  parseStep task (storedStep task).done

/-- The record when the searching tiers begin. -/
def Task.begun (task : Task α) : Trace α :=
  lastTrace (storedStep task).done (task.parsed.map (·.1)).toList

/-- The steps of a run whose stored selector is not alive. -/
theorem steps_of_not_alive {task : Task α} (h : task.storedVisit.verdict.liveness ≠ .alive) :
    task.run.steps = storedStep task :: (task.parsed.map (·.1)).toList ++
      searchSteps task (task.parsed.bind (·.2)) task.begun ++ [probeStep task task.searched] := by
  unfold Task.run
  dsimp only
  rw [if_neg h]
  rfl

theorem steps_of_alive {task : Task α} (h : task.storedVisit.verdict.liveness = .alive) :
    task.run.steps = [storedStep task] := by
  unfold Task.run
  dsimp only
  rw [if_pos h]

/-- Before the searching tiers only the stored selector and the stored fragment give reasons. -/
theorem follows_begun (task : Task α) :
    ∃ stages, stages ⊆ [Tier.storedSelector.label, parseLabel] ∧
      Follows {} stages (storedStep task :: (task.parsed.map (·.1)).toList) task.begun := by
  obtain ⟨first, hfirst, hstored⟩ := continues_storedStep task
  have hstages : first ⊆ [Tier.storedSelector.label, parseLabel] := by
    rcases hfirst with rfl | rfl <;> simp
  unfold Task.begun
  cases hparsed : task.parsed with
  | none => exact ⟨first, hstages, .single hstored⟩
  | some parsed =>
    obtain ⟨second, hsecond, hstep⟩ := continues_parseStep hparsed
    refine ⟨first ++ second, List.append_subset.mpr ⟨hstages, ?_⟩, .cons hstored (.single hstep)⟩
    rcases hsecond with rfl | rfl <;> simp

theorem grows_rate (task : Task α) (t : Trace α) : t.Grows [] (task.rate t) :=
  ⟨⟨[], (List.append_nil _).symm, .nil⟩,
    selectors_map (f := (·.rated task.weights task.prefer)) (fun _ => rfl) _⟩

/-- A search closes with its result. -/
theorem grows_searchOutcome (task : Task α) (t : Trace α) :
    t.Grows ["result"] (searchOutcome task t).trace := by
  have hrate := grows_rate task t
  unfold searchOutcome
  dsimp only
  split <;> exact hrate.trans (.note rfl List.prefix_rfl)

/-- After the searching tiers only the page and the result give reasons. -/
theorem follows_searched (task : Task α) :
    ∃ stages, stages ⊆ [probeLabel] ∧
      Follows task.searched stages [probeStep task task.searched]
        (probeStep task task.searched).done := by
  obtain ⟨stages, hstages, hstep⟩ := continues_probeStep task task.searched
  refine ⟨stages, ?_, .single hstep⟩
  rcases hstages with rfl | rfl <;> simp

/-- All that gives reasons in a run whose stored selector is not alive. -/
theorem follows_search {task : Task α} (h : task.storedVisit.verdict.liveness ≠ .alive) :
    ∃ stages, stages ⊆ runStages ∧
      Follows {} stages task.run.steps (probeStep task task.searched).done := by
  obtain ⟨early, hearly, hbegun⟩ := follows_begun task
  obtain ⟨late, hlate, hsearched⟩ := follows_searched task
  have htiers := follows_searchSteps task (task.parsed.bind (·.2)) task.begun
  rw [steps_of_not_alive h]
  refine ⟨_, ?_, (hbegun.append htiers).append hsearched⟩
  refine List.append_subset.mpr ⟨List.append_subset.mpr ⟨?_, ?_⟩, ?_⟩
  · exact List.Subset.trans hearly (by simp [runStages])
  · simp [runStages]
  · exact List.Subset.trans hlate (by simp [runStages])

/-- **The steps of a run follow each other from nothing to a record that the end of the run closes
with one more reason.** -/
theorem follows_run (task : Task α) :
    ∃ stages last closing, Follows {} stages task.run.steps last ∧
      last.Grows [closing] task.run.outcome.trace ∧ stages ⊆ runStages := by
  by_cases halive : task.storedVisit.verdict.liveness = .alive
  · obtain ⟨stages, hstages, hstep⟩ := continues_storedStep task
    refine ⟨stages, (storedStep task).done, Tier.storedSelector.label, ?_, ?_, ?_⟩
    · rw [steps_of_alive halive]
      exact .single hstep
    · rw [outcome_eq_storedOutcome halive]
      exact (grows_rate task _).trans (.note rfl List.prefix_rfl)
    · rcases hstages with rfl | rfl <;> simp [runStages]
  · obtain ⟨stages, hstages, hsteps⟩ := follows_search halive
    refine ⟨stages, _, "result", hsteps, ?_, hstages⟩
    rw [outcome_of_not_alive halive]
    exact grows_searchOutcome task _

end

end Mooring.Resolution
