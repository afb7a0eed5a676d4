import Mooring.Proofs.Resolution.Degradation

/-!
# What is true of every candidate

Once a tier has come up with a candidate, a run only gives it a place in the list, asks the page
about it, and rates it.  So a property that none of these touches (`Lasting`) is true of every
candidate of a resolution if it is true of the stored selector and of all that the three turns come
up with (`holds_resolve`), whenever the deadline strikes.

A turn keeps such a property (`Turn.Yields.step`), so turns one after the other do
(`InTurn.holds`), and then every step of a run and its end.
-/

namespace Mooring.Resolution

open Mooring.Decimal

variable {α : Type}

/-- A property of candidates in which their place, the page's answer and their rating have no
part. -/
def Lasting (P : Candidate α → Prop) : Prop :=
  ∀ (c : Candidate α) (order : Int) (liveness : Liveness) (probeError : Option String)
    (stability : Option (Stability α)), P c → P { c with order, liveness, probeError, stability }

/-- All that a turn comes up with has the property. -/
def Turn.Yields (P : Candidate α → Prop) (turn : Turn α) : Prop :=
  ∀ found, turn.work.result = .ok found → ∀ c ∈ found.candidates, P c

section

variable {task : Task α} {P : Candidate α → Prop}

theorem Lasting.probed (hP : Lasting P) {c : Candidate α} (h : P c) : P (task.probed c) := by
  unfold Task.probed
  split
  · exact h
  · exact hP c _ _ _ _ h

theorem Lasting.add (hP : Lasting P) : ∀ new known : List (Candidate α),
    (∀ c ∈ known, P c) → (∀ c ∈ new, P c) → ∀ c ∈ addCandidates known new, P c := by
  intro new
  induction new with
  | nil => exact fun known hknown _ => hknown
  | cons c rest ih =>
    intro known hknown hnew
    obtain ⟨hc, hrest⟩ := List.forall_mem_cons.mp hnew
    rw [addCandidates]
    split
    · exact ih known hknown hrest
    · exact ih _ (List.forall_mem_append.mpr
        ⟨hknown, List.forall_mem_singleton.mpr (hP c _ _ _ _ hc)⟩) hrest

/-- A turn adds nothing without the property. -/
theorem Turn.Yields.step (hP : Lasting P) {turn : Turn α} (h : turn.Yields P)
    (hbefore : ∀ c ∈ turn.before.candidates, P c) :
    ∀ c ∈ (turn.step task).done.candidates, P c := by
  unfold Turn.step tierStep
  dsimp only
  split
  · cases hresult : turn.work.result with
    | error e => exact hbefore
    | ok found => exact hP.add _ _ hbefore (h found hresult)
  · exact hbefore

/-- **Turns add nothing without the property**, and none of them finds anything without it. -/
theorem InTurn.holds (hP : Lasting P) {before after : Trace α} {turns : List (Turn α)}
    (h : InTurn task before turns after) (hyields : ∀ turn ∈ turns, turn.Yields P)
    (hbefore : ∀ c ∈ before.candidates, P c) :
    (∀ turn ∈ turns, ∀ c ∈ turn.before.candidates, P c) ∧ ∀ c ∈ after.candidates, P c := by
  induction h with
  | nil => exact ⟨by simp, hbefore⟩
  | @cons before after turn rest hturn _ ih =>
    obtain ⟨hfirst, hrest⟩ := List.forall_mem_cons.mp hyields
    subst hturn
    obtain ⟨hlater, hafter⟩ := ih hrest (hfirst.step hP hbefore)
    exact ⟨List.forall_mem_cons.mpr ⟨hbefore, hlater⟩, hafter⟩

end

variable [Scalar α] {task : Task α} {P : Candidate α → Prop} (hP : Lasting P)
  (hstored : P task.stored) (hturns : ∀ turn ∈ task.turns, turn.Yields P)

include hstored in
theorem holds_begun : ∀ c ∈ task.begun.candidates, P c := by
  rw [candidates_begun]
  exact List.forall_mem_singleton.mpr hstored

include hP hstored hturns in
theorem holds_searched : ∀ c ∈ task.searched.candidates, P c :=
  ((inTurn_turns task).holds hP hturns (holds_begun hstored)).2

include hP hstored hturns in
/-- While any step of a run is under way, every candidate in the list has the property. -/
theorem holds_during : ∀ step ∈ task.run.steps, ∀ c ∈ step.during.candidates, P c := by
  have hfirst : (storedStep task).during.candidates = [] := by
    obtain ⟨_, -, hcontinues⟩ := continues_storedStep task
    exact hcontinues.candidates
  have hdone : ∀ c ∈ (storedStep task).done.candidates, P c := by
    rw [storedStep_candidates]
    exact List.forall_mem_singleton.mpr hstored
  intro step hstep
  by_cases halive : task.storedVisit.verdict.liveness = .alive
  · rw [steps_of_alive halive] at hstep
    rw [List.mem_singleton.mp hstep, hfirst]
    simp
  · rw [steps_of_not_alive halive, searchSteps_eq_turns] at hstep
    rcases List.mem_append.mp hstep with hstep | hlast
    · rcases List.mem_append.mp hstep with hearly | hsearch
      · rcases List.mem_cons.mp hearly with rfl | hparse
        · rw [hfirst]
          simp
        · obtain ⟨parsed, hparsed, rfl⟩ := Option.map_eq_some_iff.mp (Option.mem_toList.mp hparse)
          obtain ⟨_, -, hcontinues⟩ := continues_parseStep hparsed
          rw [hcontinues.candidates]
          exact hdone
      · obtain ⟨turn, hturn, rfl⟩ := List.mem_map.mp hsearch
        have hcontinues := continues_tierStep task turn.tier turn.before turn.work
        have hbefore := ((inTurn_turns task).holds hP hturns (holds_begun hstored)).1
        intro c hc
        exact hbefore turn hturn c (hcontinues.candidates ▸ hc)
    · obtain ⟨_, -, hcontinues⟩ := continues_probeStep task task.searched
      rw [List.mem_singleton.mp hlast, hcontinues.candidates]
      exact holds_searched hP hstored hturns

include hP hstored hturns in
theorem holds_outcome : ∀ c ∈ task.run.outcome.trace.candidates, P c := by
  intro c hc
  by_cases halive : task.storedVisit.verdict.liveness = .alive
  · rw [(outcome_of_alive halive).1] at hc
    rw [List.mem_singleton.mp hc]
    exact hP _ _ _ _ _ hstored
  · rw [outcome_of_not_alive halive, (searchOutcome_eq task _).1, probeStep_candidates] at hc
    obtain ⟨d, hd, rfl⟩ := List.mem_map.mp hc
    obtain ⟨e, he, rfl⟩ := List.mem_map.mp hd
    exact hP _ _ _ _ _ (hP.probed (holds_searched hP hstored hturns e he))

include hP hstored hturns in
/-- **What is true of the stored selector and of all that the tiers come up with is true of every
candidate of a resolution**, whenever the deadline strikes. -/
theorem holds_resolve (deadline : Option Float) :
    ∀ c ∈ (resolve task deadline).trace.candidates, P c := by
  unfold resolve Run.within
  cases deadline with
  | none => exact holds_outcome hP hstored hturns
  | some d =>
    dsimp only
    split
    · exact fun c hc => absurd hc (by simp [Outcome.expired, Trace.note])
    · split
      next t hcut =>
        obtain ⟨step, hstep, hcandidates, -⟩ := exists_of_cutOff? _ _ hcut
        intro c hc
        exact holds_during hP hstored hturns step hstep c (hcandidates ▸ hc)
      next => exact holds_outcome hP hstored hturns

end Mooring.Resolution
