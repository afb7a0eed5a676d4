import Mooring.Proofs.Decimal.Magnitude
import Mooring.Stability

/-!
# Every stability score has a percentage

A percentage is the nearest whole number, and a double that is infinite or no number has none.  With
weights that are finite and not below zero a score always has one (`Stability.hasPercent_rate`).

The weights may be as large as doubles get, and then their sum becomes infinite.  That does no
harm: each weight divided by the sum is at most one all the same (`Blend.magnitude_normalized`).
Rounding may take the sum of the normalized weights beyond one, so the bound on the score is a
rough one: four products of shares are at most four.
-/

namespace Mooring

open Mooring.Decimal

namespace Settings

variable {x : Float}

/-- A weight is finite and not below zero. -/
theorem isWeight_iff : isWeight x = true ↔ magnitude x < topBits := by
  constructor
  · intro h
    unfold isWeight at h
    cases hparts : parts x with
    | finite negative num den =>
      cases negative with
      | false =>
        have hlt := toBits_lt_of_parts hparts
        rw [magnitude_of_le (Nat.le_of_lt hlt)]
        exact hlt
      | true =>
        rw [hparts] at h
        obtain rfl : num = 0 := by simpa using h
        have hnone : nearestBits 0 den = 0 := rfl
        have hbits := (parts_finite hparts).2
        rw [hnone, Nat.zero_add, if_pos rfl] at hbits
        rw [magnitude, if_pos hbits]
        decide
    | _ =>
      rw [hparts] at h
      exact absurd h (by simp)
  · intro h
    rcases magnitude_cases (Nat.le_of_lt h) with rfl | rfl | ⟨num, den, hparts⟩
    · decide
    · rw [magnitude_infinity] at h
      exact absurd h (Nat.lt_irrefl _)
    · unfold isWeight
      rw [hparts]
      rfl

namespace Blend

variable {weights values : Blend Float}

/-- A weight is not larger than the sum of all. -/
theorem magnitude_le_total (h : ∀ aspect, magnitude (weights.get aspect) ≤ topBits)
    (aspect : Aspect) :
    magnitude weights.total ≤ topBits ∧
      magnitude (weights.get aspect) ≤ magnitude weights.total := by
  obtain ⟨htwo, hfirst, hsecond⟩ := le_magnitude_add (h .hintQuality) (h .snippetMatch)
  obtain ⟨hthree, hfirsts, hthird⟩ := le_magnitude_add htwo (h .liveness)
  obtain ⟨hall, hrest, hfourth⟩ := le_magnitude_add hthree (h .specificity)
  refine ⟨hall, ?_⟩
  cases aspect with
  | hintQuality => exact Nat.le_trans hfirst (Nat.le_trans hfirsts hrest)
  | snippetMatch => exact Nat.le_trans hsecond (Nat.le_trans hfirsts hrest)
  | liveness => exact Nat.le_trans hthird hrest
  | specificity => exact hfourth

/-- What is more than zero has bits. -/
theorem magnitude_pos_of_not_atMost (h : ¬Scalar.atMost x Scalar.zero = true) :
    0 < magnitude x := by
  refine Nat.pos_of_ne_zero fun hzero => h ?_
  unfold magnitude at hzero
  split at hzero
  next hsign =>
    rw [eq_of_toBits (hsign.trans toBits_negativeZero.symm)]
    decide
  next =>
    have hbits : (Scalar.zero : Float).toBits.toNat = 0 := by decide
    rw [eq_of_toBits (hzero.trans hbits.symm)]
    decide

/-- **A normalized weight is at most one**, also if the sum of the weights is infinite. -/
theorem magnitude_normalized (h : ∀ aspect, isWeight (weights.get aspect) = true)
    (aspect : Aspect) : magnitude (weights.normalized.get aspect) ≤ (1 : Float).toBits.toNat := by
  have hlt := fun aspect => isWeight_iff.mp (h aspect)
  obtain ⟨htotal, hle⟩ := magnitude_le_total (fun aspect => Nat.le_of_lt (hlt aspect)) aspect
  unfold normalized
  dsimp only
  split
  · cases aspect <;> decide
  next hmore =>
    have hquotient := magnitude_div_le (hlt aspect) htotal hle (magnitude_pos_of_not_atMost hmore)
    cases aspect <;> exact hquotient

/-- Four shares, each weighted with at most one, sum to at most four. -/
theorem magnitude_weightedSum
    (hweights : ∀ aspect, magnitude (weights.get aspect) ≤ (1 : Float).toBits.toNat)
    (hvalues : ∀ aspect, IsShare (values.get aspect)) :
    magnitude (weights.weightedSum values) ≤ (4 : Float).toBits.toNat := by
  have hproduct (aspect : Aspect) :
      magnitude (values.get aspect * weights.get aspect) ≤ (1 : Float).toBits.toNat :=
    Nat.le_trans (magnitude_mul_le (hvalues aspect)
      (Nat.lt_of_le_of_lt (hweights aspect) (by decide))) (hweights aspect)
  have hadd {x y b : Float} (hx : magnitude x ≤ b.toBits.toNat)
      (hy : magnitude y ≤ (1 : Float).toBits.toNat) (hb : b.toBits.toNat < topBits) :
      magnitude (x + y) ≤ magnitude (b + 1) :=
    magnitude_add_mono hx hy hb (by decide)
  have htwo := hadd (hproduct .hintQuality) (hproduct .snippetMatch) (by decide)
  have hthree := hadd (b := 2) (Nat.le_trans htwo (by decide)) (hproduct .liveness)
    (by decide)
  have hfour := hadd (b := 3) (Nat.le_trans hthree (by decide)) (hproduct .specificity)
    (by decide)
  exact Nat.le_trans hfour (by decide)

end Blend

theorem ofFloat_of_isWeight (h : isWeight x = true) : Scalar.ofFloat x = x := by
  unfold isWeight at h
  unfold Scalar.ofFloat
  cases hparts : parts x with
  | finite negative num den => exact nearest_parts hparts
  | _ =>
    rw [hparts] at h
    exact absurd h (by simp)

/-- A part's weight from the environment is a weight. -/
theorem isWeight_weightFrom (aspect : Aspect) (env : Environment) :
    isWeight (aspect.weightFrom env).1 = true := by
  have hfallback : isWeight ((Blend.defaultWeights (α := Float)).get aspect) = true := by
    cases aspect <;> decide
  unfold Aspect.weightFrom
  dsimp only
  cases env.setting? aspect.environmentName with
  | none => exact hfallback
  | some raw =>
    dsimp only
    cases spelled? raw with
    | none => exact hfallback
    | some x =>
      dsimp only
      split
      next hweight =>
        rw [ofFloat_of_isWeight hweight]
        exact hweight
      next => exact hfallback

/-- **The weights that the environment sets are weights.** -/
theorem isWeight_loadWeights (env : Environment) (aspect : Aspect) :
    isWeight ((loadWeights env).1.get aspect) = true := by
  refine isWeight_iff.mpr (Nat.lt_of_le_of_lt (Blend.magnitude_normalized ?_ aspect)
    (by decide))
  intro part
  have hpart := isWeight_weightFrom part env
  cases part <;> exact hpart

end Settings

namespace Stability

open Mooring.Settings

/-- A score has a percentage: the double that is rounded to whole percent is finite. -/
def HasPercent (s : Stability Float) : Prop :=
  ∃ negative num den, Scalar.parts (s.overall * Scalar.hundredths 10000) = .finite negative num den

theorem parts_four : Decimal.parts 4 = .finite false (4 * 2 ^ 50) (2 ^ 50) := by
  decide

/-- What is at most four has a percentage. -/
theorem hasPercent_of_le {s : Stability Float}
    (h : magnitude s.overall ≤ (4 : Float).toBits.toNat) : s.HasPercent := by
  have hhundred :
      Decimal.parts (Scalar.hundredths 10000) = .finite false (100 * 2 ^ 46) (2 ^ 46) := by
    decide
  unfold HasPercent
  rcases cases_of_le_whole parts_four h with hzero | ⟨num, den, hparts, hle⟩
  · rw [hzero]
    exact ⟨true, 0, 2 ^ 1074, rfl⟩
  · obtain ⟨⟨k, rfl⟩, -⟩ := parts_finite hparts
    have hbits : (s.overall * Scalar.hundredths 10000).toBits.toNat ≤ nearestBits 400 1 := by
      rw [toBits_mul hparts hhundred]
      refine nearestBits_mono (Nat.mul_pos (Nat.two_pow_pos k) (Nat.two_pow_pos 46)) Nat.one_pos ?_
      calc num * (100 * 2 ^ 46) * 1 ≤ 4 * 2 ^ k * (100 * 2 ^ 46) * 1 :=
            Nat.mul_le_mul_right _ (Nat.mul_le_mul_right _ hle)
        _ = 400 * (2 ^ k * 2 ^ 46) := by ring
    exact ⟨false, parts_of_lt (Nat.lt_of_le_of_lt hbits (by decide))⟩

theorem hintQuality_le (prefer : List String) : hintQuality prefer ≤ 100 := by
  unfold hintQuality
  split <;> decide

theorem livenessHundredths_le (alive : Option Bool) : livenessHundredths alive ≤ 100 := by
  rcases alive with _ | _ | _ <;> decide

theorem specificity_le (selector : String) : Selector.specificity selector ≤ 100 := by
  have htext (cs : List Char) : Selector.textSpecificity cs ≤ 100 := by
    unfold Selector.textSpecificity
    grind
  unfold Selector.specificity
  grind

/-- The parts of a score are shares. -/
theorem isShare_parts (e : Evidence) (aspect : Aspect) : IsShare (e.parts.get aspect) := by
  cases aspect with
  | hintQuality => exact isShare_ratio (hintQuality_le _)
  | snippetMatch => exact isShare_ratio (by split <;> decide)
  | liveness => exact isShare_ratio (livenessHundredths_le _)
  | specificity => exact isShare_ratio (specificity_le _)

/-- **With weights that are weights, a score has a percentage.** -/
theorem hasPercent_rate {weights : Blend Float}
    (h : ∀ aspect, isWeight (weights.get aspect) = true) (e : Evidence) :
    (rate weights e).HasPercent := by
  have hsum := Blend.magnitude_weightedSum (Blend.magnitude_normalized h) (isShare_parts e)
  exact hasPercent_of_le (magnitude_round_le parts_four hsum 6)

end Stability

end Mooring
