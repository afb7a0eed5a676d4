import Mooring.Proofs.Decimal.Shares

/-!
# Scores in exact fractions

The formulas for scores can be read in exact arithmetic.  Then a ratio is the quotient
(`ratio_eq_div`), and rounding to decimal places gives the multiple of the last place that is nearest
(`round_nearest`).  It is at most half a place away (`abs_round_sub_le`), so what is rounded already
stays as it is (`round_round`), and what lies between zero and one stays there (`round_bounds`).
-/

namespace Mooring.Decimal

/-! ## Rounding a quotient -/

/-- A rounded quotient is at most one half away. -/
theorem roundDiv_bounds (num : Nat) {den : Nat} (hden : 0 < den) :
    2 * num ≤ (2 * roundDiv num den + 1) * den ∧ 2 * roundDiv num den * den ≤ 2 * num + den := by
  have hsplit := Nat.div_add_mod num den
  have hrest := Nat.mod_lt num hden
  have hdown : 2 * (num / den) * den = 2 * (den * (num / den)) := by ring
  have hup : 2 * (num / den + 1) * den = 2 * (den * (num / den)) + 2 * den := by ring
  unfold roundDiv
  dsimp only
  split_ifs <;> rw [Nat.add_mul, Nat.one_mul] <;> omega

/-- A whole number less than one half away is the rounded quotient. -/
theorem roundDiv_eq {num den k : Nat} (hlow : 2 * k * den < 2 * num + den)
    (hhigh : 2 * num < (2 * k + 1) * den) : roundDiv num den = k := by
  have hden : 0 < den := by
    rcases Nat.eq_zero_or_pos den with rfl | hpos
    · omega
    · exact hpos
  obtain ⟨hup, hdown⟩ := roundDiv_bounds num hden
  have hle : 2 * roundDiv num den * den < (2 * k + 2) * den := by
    calc 2 * roundDiv num den * den ≤ 2 * num + den := hdown
      _ < (2 * k + 1) * den + den := Nat.add_lt_add_right hhigh den
      _ = (2 * k + 2) * den := by ring
  have hge : 2 * k * den < (2 * roundDiv num den + 2) * den := by
    calc 2 * k * den < 2 * num + den := hlow
      _ ≤ (2 * roundDiv num den + 1) * den + den := Nat.add_le_add_right hup den
      _ = (2 * roundDiv num den + 2) * den := by ring
  have := Nat.lt_of_mul_lt_mul_right hle
  have := Nat.lt_of_mul_lt_mul_right hge
  omega

/-! ## Exact scores -/

variable (x : Rat) (places : Nat)

theorem ratio_eq_div (num den : Nat) : (Scalar.ratio num den : Rat) = num / den :=
  Rat.mkRat_eq_div ..

theorem hundredths_eq_div (n : Nat) : (Scalar.hundredths n : Rat) = n / 100 := by
  rw [Scalar.hundredths, ratio_eq_div]
  norm_num

theorem zero_eq : (Scalar.zero : Rat) = 0 := by
  rw [Scalar.zero, hundredths_eq_div]
  norm_num

theorem one_eq : (Scalar.one : Rat) = 1 := by
  rw [Scalar.one, hundredths_eq_div]
  norm_num

/-- A rounded fraction is at most half a place away. -/
theorem abs_roundToPlaces_sub_le (num : Nat) {den : Nat} (hden : 0 < den) :
    |(roundToPlaces places num den / 10 ^ places : Rat) - num / den| ≤ 1 / (2 * 10 ^ places) := by
  obtain ⟨hup, hdown⟩ := roundDiv_bounds (num * 10 ^ places) hden
  have hplaces : (0 : Rat) < 10 ^ places := by positivity
  have hdenominator : (0 : Rat) < den := by exact_mod_cast hden
  have hup : 2 * (num * 10 ^ places) ≤ (2 * (roundToPlaces places num den : Rat) + 1) * den := by
    exact_mod_cast hup
  have hdown : 2 * (roundToPlaces places num den : Rat) * den ≤ 2 * (num * 10 ^ places) + den := by
    exact_mod_cast hdown
  rw [div_sub_div _ _ hplaces.ne' hdenominator.ne', abs_le, ← neg_div,
    div_le_div_iff₀ (by positivity) (by positivity), div_le_div_iff₀ (by positivity) (by positivity)]
  constructor <;> nlinarith

theorem round_eq_ite : Scalar.round places x =
    if x < 0 then -(roundToPlaces places x.num.natAbs x.den / 10 ^ places : Rat)
    else roundToPlaces places x.num.natAbs x.den / 10 ^ places := by
  have hfraction (n : Nat) : mkRat n (10 ^ places) = (n / 10 ^ places : Rat) := by
    rw [Rat.mkRat_eq_div]
    push_cast
    rfl
  have hround : Scalar.round places x =
      if decide (x < 0) = true then -mkRat (roundToPlaces places x.num.natAbs x.den) (10 ^ places)
      else mkRat (roundToPlaces places x.num.natAbs x.den) (10 ^ places) := rfl
  rw [hround, hfraction]
  simp only [decide_eq_true_iff]

theorem natAbs_div_den : (x.num.natAbs / x.den : Rat) = |x| := by
  rw [Rat.abs_def, Rat.divInt_eq_div, Int.cast_natCast, Int.cast_natCast]

/-- **A rounded score is at most half a place away.** -/
theorem abs_round_sub_le : |Scalar.round places x - x| ≤ 1 / (2 * 10 ^ places) := by
  have hnear := abs_roundToPlaces_sub_le places x.num.natAbs x.den_pos
  rw [natAbs_div_den] at hnear
  rw [round_eq_ite]
  split
  next hneg =>
    rw [abs_of_neg hneg, sub_neg_eq_add] at hnear
    rw [← abs_neg, neg_sub, sub_neg_eq_add, add_comm]
    exact hnear
  next hnonneg =>
    rw [abs_of_nonneg (not_lt.mp hnonneg)] at hnear
    exact hnear

/-- A rounded score is a whole number of places. -/
theorem exists_round_eq : ∃ k : Int, Scalar.round places x = (k / 10 ^ places : Rat) := by
  rw [round_eq_ite]
  split
  · exact ⟨-roundToPlaces places x.num.natAbs x.den, by push_cast; rw [neg_div]⟩
  · exact ⟨roundToPlaces places x.num.natAbs x.den, by push_cast; rfl⟩

/-- **Rounding gives the nearest number with so many places.** -/
theorem round_nearest (m : Int) :
    |Scalar.round places x - x| ≤ |(m / 10 ^ places : Rat) - x| := by
  obtain ⟨k, hk⟩ := exists_round_eq x places
  have hhalf := abs_round_sub_le x places
  rw [hk] at hhalf ⊢
  rcases eq_or_ne k m with rfl | hne
  · exact le_refl _
  · -- Another one is a whole place away from the rounded score.
    have hplaces : (0 : Rat) < 10 ^ places := by positivity
    have hapart : (1 : Rat) ≤ |(k : Rat) - m| := by
      exact_mod_cast Int.one_le_abs (sub_ne_zero.mpr hne)
    have hplace : 1 / 10 ^ places ≤ |(k / 10 ^ places : Rat) - m / 10 ^ places| := by
      rw [← sub_div, abs_div, abs_of_pos hplaces]
      exact div_le_div_of_nonneg_right hapart hplaces.le
    have hpath := abs_sub_le (k / 10 ^ places : Rat) x (m / 10 ^ places)
    have hhalves : (1 : Rat) / 10 ^ places = 1 / (2 * 10 ^ places) + 1 / (2 * 10 ^ places) := by
      field_simp
      norm_num
    rw [abs_sub_comm x] at hpath
    linarith

/-- **Rounding keeps the order.**  Otherwise each of two numbers would be no farther from the place
of the other. -/
theorem round_mono {x y : Rat} (h : x ≤ y) (places : Nat) :
    Scalar.round places x ≤ Scalar.round places y := by
  rcases eq_or_lt_of_le h with rfl | hlt
  · exact le_refl _
  · by_contra hback
    obtain ⟨k, hk⟩ := exists_round_eq x places
    obtain ⟨m, hm⟩ := exists_round_eq y places
    have hx := round_nearest x places m
    have hy := round_nearest y places k
    rw [← hm, ← sq_le_sq] at hx
    rw [← hk, ← sq_le_sq] at hy
    nlinarith

/-- What has so many places stays as it is. -/
theorem round_eq_self (m : Int) :
    Scalar.round places (m / 10 ^ places : Rat) = (m / 10 ^ places : Rat) := by
  have hnearest := round_nearest (m / 10 ^ places) places m
  rw [sub_self, abs_zero] at hnearest
  exact sub_eq_zero.mp (abs_eq_zero.mp (le_antisymm hnearest (abs_nonneg _)))

/-- **Rounding twice is rounding once.** -/
theorem round_round : Scalar.round places (Scalar.round places x) = Scalar.round places x := by
  obtain ⟨k, hk⟩ := exists_round_eq x places
  rw [hk, round_eq_self]

theorem round_zero_exact : Scalar.round places (Scalar.zero : Rat) = Scalar.zero := by
  have hzero := round_eq_self places 0
  rwa [Int.cast_zero, zero_div, ← zero_eq] at hzero

theorem round_one_exact : Scalar.round places (Scalar.one : Rat) = Scalar.one := by
  have hone := round_eq_self places (10 ^ places)
  rwa [Int.cast_pow, Int.cast_ofNat, div_self (by positivity), ← one_eq] at hone

/-- **Rounding stays between zero and one.** -/
theorem round_bounds (hzero : 0 ≤ x) (hone : x ≤ 1) :
    0 ≤ Scalar.round places x ∧ Scalar.round places x ≤ 1 := by
  have hplaces : (0 : Rat) < 10 ^ places := by positivity
  have hden : (0 : Rat) < x.den := by exact_mod_cast x.den_pos
  have hle : x.num.natAbs ≤ 1 * x.den := by
    rw [Nat.one_mul]
    have hvalue := natAbs_div_den x
    rw [abs_of_nonneg hzero] at hvalue
    exact_mod_cast (div_le_one hden).mp (hvalue.trans_le hone)
  have hrounded := roundToPlaces_le x.den_pos hle places
  rw [Nat.one_mul] at hrounded
  rw [round_eq_ite, if_neg (not_lt.mpr hzero)]
  exact ⟨by positivity, (div_le_one hplaces).mpr (by exact_mod_cast hrounded)⟩

end Mooring.Decimal
