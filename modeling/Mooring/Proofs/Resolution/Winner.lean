import Mooring.Resolution.Candidate

/-!
# The winner among some candidates

`winner?` picks one of the contenders, and it picks one whenever there is one
(`winner?_isSome_iff`).  What the pick looks at does not include the stability of a candidate, so
rating the candidates before or after the pick makes no difference (`winner?_rated`): the rating is
a diagnosis.
-/

namespace Mooring.Resolution.Candidate

open Mooring.Decimal

variable {α : Type} [Scalar α]

/-! ## The pick -/

theorem foremost?_mem : ∀ (cs : List (Candidate α)) (c : Candidate α),
    foremost? cs = some c → c ∈ cs := by
  intro cs
  induction cs with
  | nil => intro c h; simp [foremost?] at h
  | cons d rest ih =>
    intro c h
    simp only [foremost?] at h
    split at h
    next best hbest =>
      split at h
      · exact List.mem_cons_of_mem _ (ih c (by rw [hbest]; exact h))
      · rw [Option.some.inj h]
        exact List.mem_cons_self ..
    next =>
      rw [Option.some.inj h]
      exact List.mem_cons_self ..

theorem foremost?_isSome {cs : List (Candidate α)} (h : cs ≠ []) : (foremost? cs).isSome := by
  cases cs with
  | nil => exact absurd rfl h
  | cons c rest =>
    simp only [foremost?]
    split
    · split <;> rfl
    · rfl

/-- The winner is one of the contenders. -/
theorem winner?_eq_some {cs : List (Candidate α)} {c : Candidate α} (h : winner? cs = some c) :
    c ∈ cs ∧ c.isContender = true :=
  List.mem_filter.mp (foremost?_mem _ c h)

/-- **There is a winner just if there is a contender.** -/
theorem winner?_isSome_iff (cs : List (Candidate α)) :
    (winner? cs).isSome ↔ ∃ c ∈ cs, c.isContender = true := by
  constructor
  · intro h
    obtain ⟨c, hc⟩ := Option.isSome_iff_exists.mp h
    exact ⟨c, winner?_eq_some hc⟩
  · rintro ⟨c, hmem, hc⟩
    refine foremost?_isSome fun hnil => ?_
    have hin : c ∈ cs.filter isContender := List.mem_filter.mpr ⟨hmem, hc⟩
    rw [hnil] at hin
    exact absurd hin (by simp)

/-- A contender is alive, if nothing is not more than nothing. -/
theorem isContender_iff (hzero : Scalar.less (Scalar.zero : α) Scalar.zero = false)
    (c : Candidate α) :
    c.isContender = true ↔ c.liveness = .alive ∧ Scalar.less Scalar.zero c.score = true := by
  unfold isContender confidence
  cases hlive : c.liveness with
  | alive => simp
  | dead => simp [hzero]
  | unknown => simp [hzero]

/-! ## Rating does not take part in it -/

section Rating

variable (weights : Settings.Blend α) (prefer : List String)

theorem isContender_rated (c : Candidate α) :
    (c.rated weights prefer).isContender = c.isContender := rfl

theorem before_rated (a b : Candidate α) :
    (a.rated weights prefer).before (b.rated weights prefer) = a.before b := rfl

theorem foremost?_rated (cs : List (Candidate α)) :
    foremost? (cs.map (·.rated weights prefer)) = (foremost? cs).map (·.rated weights prefer) := by
  induction cs with
  | nil => rfl
  | cons c rest ih =>
    rw [List.map_cons, foremost?, foremost?, ih]
    cases foremost? rest with
    | none => rfl
    | some best =>
      have hbefore := before_rated weights prefer best c
      simp only [Option.map_some]
      by_cases h : best.before c = true
      · rw [if_pos (hbefore.trans h), if_pos h]
        rfl
      · rw [if_neg (fun h' => h (hbefore.symm.trans h')), if_neg h]
        rfl

/-- **Rating the candidates does not change which one wins.** -/
theorem winner?_rated (cs : List (Candidate α)) :
    winner? (cs.map (·.rated weights prefer)) = (winner? cs).map (·.rated weights prefer) := by
  have hfilter : (cs.map (·.rated weights prefer)).filter isContender =
      (cs.filter isContender).map (·.rated weights prefer) := by
    rw [List.filter_map]
    rfl
  rw [winner?, winner?, hfilter, foremost?_rated]

end Rating

end Mooring.Resolution.Candidate
