import Mooring.Proofs.Settings.Weighing
import Mooring.Proofs.Stability

/-!
# A stability score blends its parts

In exact arithmetic, weights that are not negative and sum to one make the score a blend of its
parts.  The score is rounded to six places.  That does not take it out of the range of the parts, for
the parts are hundredths and stay as they are when they are rounded (`round_part`), and rounding
keeps the order.  For the same reason a score is not lower than another whose parts are all no larger
(`overall_mono`).

The weights of the environment are such weights (`rate_blends`).
-/

namespace Mooring

open Mooring.Decimal Mooring.Settings

namespace Settings.Blend

/-- The least of the four values. -/
def least (b : Blend Rat) : Rat :=
  min (min b.hintQuality b.snippetMatch) (min b.liveness b.specificity)

/-- The greatest of the four values. -/
def greatest (b : Blend Rat) : Rat :=
  max (max b.hintQuality b.snippetMatch) (max b.liveness b.specificity)

theorem least_le (b : Blend Rat) (aspect : Aspect) : b.least ≤ b.get aspect := by
  cases aspect with
  | hintQuality => exact (min_le_left _ _).trans (min_le_left _ _)
  | snippetMatch => exact (min_le_left _ _).trans (min_le_right _ _)
  | liveness => exact (min_le_right _ _).trans (min_le_left _ _)
  | specificity => exact (min_le_right _ _).trans (min_le_right _ _)

theorem le_greatest (b : Blend Rat) (aspect : Aspect) : b.get aspect ≤ b.greatest := by
  cases aspect with
  | hintQuality => exact (le_max_left _ _).trans (le_max_left _ _)
  | snippetMatch => exact (le_max_right _ _).trans (le_max_left _ _)
  | liveness => exact (le_max_left _ _).trans (le_max_right _ _)
  | specificity => exact (le_max_right _ _).trans (le_max_right _ _)

/-- What holds of all four values holds of the least and of the greatest. -/
theorem least_greatest {p : Rat → Prop} {b : Blend Rat} (h : ∀ aspect, p (b.get aspect)) :
    p b.least ∧ p b.greatest := by
  have hmin {x y : Rat} (hx : p x) (hy : p y) : p (min x y) := by
    rcases min_choice x y with heq | heq <;> rw [heq] <;> assumption
  have hmax {x y : Rat} (hx : p x) (hy : p y) : p (max x y) := by
    rcases max_choice x y with heq | heq <;> rw [heq] <;> assumption
  exact ⟨hmin (hmin (h .hintQuality) (h .snippetMatch)) (hmin (h .liveness) (h .specificity)),
    hmax (hmax (h .hintQuality) (h .snippetMatch)) (hmax (h .liveness) (h .specificity))⟩

end Settings.Blend

namespace Stability

variable {weights : Blend Rat} {e e' : Evidence}

/-! ## The parts -/

/-- A part is a whole number of hundredths, at most a hundred of them. -/
theorem exists_hundredths (e : Evidence) (aspect : Aspect) :
    ∃ n : Nat, n ≤ 100 ∧ (e.parts : Blend Rat).get aspect = n / 100 := by
  cases aspect with
  | hintQuality => exact ⟨_, hintQuality_le _, hundredths_eq_div _⟩
  | snippetMatch => exact ⟨_, by split <;> decide, hundredths_eq_div _⟩
  | liveness => exact ⟨_, livenessHundredths_le _, hundredths_eq_div _⟩
  | specificity => exact ⟨_, specificity_le _, hundredths_eq_div _⟩

theorem part_bounds (e : Evidence) (aspect : Aspect) :
    0 ≤ (e.parts : Blend Rat).get aspect ∧ (e.parts : Blend Rat).get aspect ≤ 1 := by
  obtain ⟨n, hle, hpart⟩ := exists_hundredths e aspect
  have hle : (n : Rat) ≤ 100 := by exact_mod_cast hle
  rw [hpart]
  exact ⟨by positivity, (div_le_one (by norm_num)).mpr hle⟩

/-- Rounding a part to six places changes nothing. -/
theorem round_part (e : Evidence) (aspect : Aspect) :
    Scalar.round 6 ((e.parts : Blend Rat).get aspect) = (e.parts : Blend Rat).get aspect := by
  obtain ⟨n, -, hpart⟩ := exists_hundredths e aspect
  have hplaces : (n / 100 : Rat) = (((n * 10000 : Nat) : Int) : Rat) / 10 ^ 6 := by
    push_cast
    ring
  rw [hpart, hplaces, round_eq_self]

/-! ## The score -/

theorem overall_eq (h : weights.Balanced) (e : Evidence) :
    (rate weights e).overall = Scalar.round 6 (weights.weightedSum e.parts) := by
  show Scalar.round 6 (weights.normalized.weightedSum e.parts) = _
  rw [h.normalized]

/-- **The score lies between the least and the greatest part.** -/
theorem overall_bounds (h : weights.Balanced) (e : Evidence) :
    (e.parts : Blend Rat).least ≤ (rate weights e).overall ∧
      (rate weights e).overall ≤ (e.parts : Blend Rat).greatest := by
  obtain ⟨hleast, hgreatest⟩ :=
    Blend.least_greatest (p := fun part => Scalar.round 6 part = part) (round_part e)
  rw [overall_eq h]
  constructor
  · rw [← hleast]
    exact round_mono (h.le_weightedSum (Blend.least_le e.parts)) 6
  · rw [← hgreatest]
    exact round_mono (h.weightedSum_le (Blend.le_greatest e.parts)) 6

theorem overall_bounds_one (h : weights.Balanced) (e : Evidence) :
    0 ≤ (rate weights e).overall ∧ (rate weights e).overall ≤ 1 := by
  rw [overall_eq h]
  exact round_bounds _ 6 (h.le_weightedSum fun aspect => (part_bounds e aspect).1)
    (h.weightedSum_le fun aspect => (part_bounds e aspect).2)

/-- **The score grows with each part.** -/
theorem overall_mono (h : weights.Balanced)
    (hle : ∀ aspect, (e.parts : Blend Rat).get aspect ≤ (e'.parts : Blend Rat).get aspect) :
    (rate weights e).overall ≤ (rate weights e').overall := by
  rw [overall_eq h, overall_eq h]
  exact round_mono (Blend.weightedSum_mono h.nonneg hle) 6

theorem overall_alive_mono (h : weights.Balanced) (e : Evidence) {alive alive' : Option Bool}
    (hle : livenessHundredths alive ≤ livenessHundredths alive') :
    (rate weights { e with alive }).overall ≤ (rate weights { e with alive := alive' }).overall := by
  refine overall_mono h fun aspect => ?_
  cases aspect with
  | liveness =>
    show (Scalar.hundredths (livenessHundredths alive) : Rat) ≤
      Scalar.hundredths (livenessHundredths alive')
    rw [hundredths_eq_div, hundredths_eq_div]
    exact div_le_div_of_nonneg_right (by exact_mod_cast hle) (by norm_num)
  | _ => exact le_refl _

theorem overall_matched_mono (h : weights.Balanced) (e : Evidence) (matched : Option Bool) :
    (rate weights { e with snippetMatched := matched }).overall ≤
      (rate weights { e with snippetMatched := some true }).overall := by
  refine overall_mono h fun aspect => ?_
  cases aspect with
  | snippetMatch =>
    have hle : (if matched = some true then 100 else 0) ≤ 100 := by split <;> decide
    show (Scalar.hundredths (if matched = some true then 100 else 0) : Rat) ≤ Scalar.hundredths 100
    rw [hundredths_eq_div, hundredths_eq_div]
    exact div_le_div_of_nonneg_right (by exact_mod_cast hle) (by norm_num)
  | _ => exact le_refl _

/-- **Under the weights of any environment a score is a blend of its parts**, in exact arithmetic.
The weights lie between zero and one and sum to one.  They are in the proportions of the weights that
the environment sets, and the defaults if those are all zero.  Normalizing them again changes
nothing.  The score of any selector with any evidence lies between zero and one and between the least
and the greatest of its parts.  It does not fall when the page says nothing instead of that the
selector is dead, or that it is alive instead of nothing, nor when the fragment is found to match. -/
theorem rate_blends (env : Environment) :
    let weights : Blend Rat := (loadWeights env).1
    (∀ aspect, 0 ≤ weights.get aspect ∧ weights.get aspect ≤ 1) ∧ weights.total = 1 ∧
    (∃ accepted : Blend Rat, (∀ aspect : Aspect, aspect.Accepts env (accepted.get aspect)) ∧
      (accepted.total = 0 ↔ ∀ aspect, accepted.get aspect = 0) ∧
      ∀ aspect, weights.get aspect =
        if accepted.total = 0 then (aspect.fallbackTenths : Rat) / 10
        else accepted.get aspect / accepted.total) ∧
    weights.normalized = weights ∧
    ∀ e : Evidence,
      (0 ≤ (rate weights e).overall ∧ (rate weights e).overall ≤ 1) ∧
      ((rate weights e).parts.least ≤ (rate weights e).overall ∧
        (rate weights e).overall ≤ (rate weights e).parts.greatest) ∧
      ((rate weights { e with alive := some false }).overall ≤
          (rate weights { e with alive := none }).overall ∧
        (rate weights { e with alive := none }).overall ≤
          (rate weights { e with alive := some true }).overall) ∧
      (rate weights { e with snippetMatched := some false }).overall ≤
        (rate weights { e with snippetMatched := some true }).overall := by
  intro weights
  have h : weights.Balanced := balanced_loadWeights env
  have haccepts (aspect : Aspect) := accepts_acceptedWeights aspect env
  refine ⟨fun aspect => ⟨h.nonneg aspect, h.le_one aspect⟩, h.total,
    ⟨acceptedWeights env, haccepts, Blend.total_eq_zero_iff fun aspect => (haccepts aspect).nonneg,
      fun aspect => get_loadWeights aspect env⟩,
    h.normalized, fun e => ⟨overall_bounds_one h e, overall_bounds h e,
      ⟨overall_alive_mono h e (by decide), overall_alive_mono h e (by decide)⟩,
      overall_matched_mono h e (some false)⟩⟩

end Stability

end Mooring
