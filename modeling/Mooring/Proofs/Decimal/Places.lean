import Mooring.Proofs.Decimal.Exact

/-!
# A rounded double stays as it is

Rounding to decimal places ends with a double again, and that is not a decimal fraction but the
double nearest to one.  Rounding it once more finds the same decimal fraction
(`roundToPlaces_nearest`): doubles up to one are finer than halves of the fifteenth place, so a
double that lies half a place or more away from a fraction has another one on its way there, and is
not the nearest.

The doubles on the way are whole numbers of the unit two to the power -52 (`not_between`).
-/

namespace Mooring.Decimal

variable {num den m k places : Nat} {x : Float}

/-! ## Whole numbers of small units are doubles -/

/-- A whole number of units, up to one, is worth a mantissa with an exponent. -/
theorem exists_canonical (hpos : 0 < m) (hle : m ≤ 2 ^ 52) :
    ∃ n e, Measures m (2 ^ 52) n e ∧ Canonical n e ∧ e ≤ 971 := by
  have hlog := Nat.log2_self_le (Nat.pos_iff_ne_zero.mp hpos)
  have hlog' : m < 2 ^ (m.log2 + 1) := Nat.lt_log2_self
  have hfew : m.log2 ≤ 52 := by
    by_contra hmany
    have := Nat.pow_lt_pow_right (show 1 < 2 by decide) (Nat.lt_of_not_le hmany)
    omega
  -- The mantissa is lengthened to 53 digits.
  have hmeasures := (measures_two_pow m 52).finer (52 - m.log2)
  have hlow := Nat.mul_le_mul_right (2 ^ (52 - m.log2)) hlog
  have hhigh := Nat.mul_lt_mul_of_pos_right hlog' (Nat.two_pow_pos (52 - m.log2))
  rw [← Nat.pow_add, show m.log2 + (52 - m.log2) = 52 by omega] at hlow
  rw [← Nat.pow_add, show m.log2 + 1 + (52 - m.log2) = 53 by omega] at hhigh
  exact ⟨_, _, hmeasures, ⟨hhigh, by omega, Or.inl hlow⟩, by omega⟩

/-- What is worth the same mantissa with the same exponent is worth the same. -/
theorem Measures.value_eq {num' den' : Nat} {e : Int} (h : Measures num den m e)
    (h' : Measures num' den' m e) : num * den' = num' * den := by
  obtain ⟨-, hvalue⟩ := h
  obtain ⟨-, hvalue'⟩ := h'
  have hpow : 0 < 2 ^ (-e).toNat * 2 ^ e.toNat :=
    Nat.mul_pos (Nat.two_pow_pos _) (Nat.two_pow_pos _)
  refine Nat.eq_of_mul_eq_mul_right hpow ?_
  calc num * den' * (2 ^ (-e).toNat * 2 ^ e.toNat)
      = num * 2 ^ (-e).toNat * (den' * 2 ^ e.toNat) := by ring
    _ = num' * 2 ^ (-e).toNat * (den * 2 ^ e.toNat) := by
        rw [hvalue, hvalue']
        ring
    _ = num' * den * (2 ^ (-e).toNat * 2 ^ e.toNat) := by ring

/-- A double with the bits of a whole number of units is worth that. -/
theorem value_eq_of_nearestBits (hx : parts x = .finite false num den) (hpos : 0 < m)
    (hle : m ≤ 2 ^ 52) (hbits : nearestBits m (2 ^ 52) = x.toBits.toNat) :
    num * 2 ^ 52 = m * den := by
  obtain ⟨n, e, hmeasures, hcanonical, he⟩ := exists_canonical hpos hle
  obtain ⟨-, n', e', hmeasures', hcanonical', -, hbits'⟩ := parts_measures hx
  rw [if_neg (by decide), Nat.add_zero, ← hbits, hcanonical.nearestBits_eq he hmeasures] at hbits'
  obtain ⟨rfl, rfl⟩ := hcanonical.unique hcanonical' hbits'
  exact hmeasures'.value_eq hmeasures

/-- **No whole number of units lies between a fraction and the double nearest to it.** -/
theorem not_between {a b : Nat} (hb : 0 < b) (hx : parts x = .finite false num den)
    (hnearest : x.toBits.toNat = nearestBits a b) (hpos : 0 < m) (hle : m ≤ 2 ^ 52) :
    ¬(num * 2 ^ 52 < m * den ∧ m * b ≤ a * 2 ^ 52) ∧
      ¬(m * den < num * 2 ^ 52 ∧ a * 2 ^ 52 ≤ m * b) := by
  have hbits := toBits_of_parts hx
  obtain ⟨⟨n, rfl⟩, -⟩ := parts_finite hx
  have hden := Nat.two_pow_pos n
  have hunit := Nat.two_pow_pos 52
  constructor
  · rintro ⟨hlow, hhigh⟩
    have hup := nearestBits_mono hden hunit (Nat.le_of_lt hlow)
    have hup' := nearestBits_mono hunit hb hhigh
    have := value_eq_of_nearestBits hx hpos hle (by omega)
    omega
  · rintro ⟨hlow, hhigh⟩
    have hdown := nearestBits_mono hunit hden (Nat.le_of_lt hlow)
    have hdown' := nearestBits_mono hb hunit hhigh
    have := value_eq_of_nearestBits hx hpos hle (by omega)
    omega

/-! ## Rounding twice -/

/-- The first multiple beyond a number is not far from it. -/
theorem exists_multiple (q : Nat) {c : Nat} (hc : 0 < c) :
    ∃ m, 0 < m ∧ q < c * m ∧ c * m ≤ q + c := by
  have hsplit := Nat.div_add_mod q c
  have hrest := Nat.mod_lt q hc
  refine ⟨q / c + 1, Nat.succ_pos _, ?_, ?_⟩ <;> rw [Nat.mul_add, Nat.mul_one] <;> omega

/-- **The double nearest to a decimal fraction rounds back to it**, with up to fifteen places. -/
theorem roundToPlaces_nearest (hplaces : places ≤ 15) (hk : k ≤ 10 ^ places)
    (hx : parts x = .finite false num den) (hnearest : x.toBits.toNat = nearestBits k (10 ^ places))
    (hle : num ≤ den) : roundToPlaces places num den = k := by
  have hpow : 10 ^ places ≤ 10 ^ 15 := Nat.pow_le_pow_right (by decide) hplaces
  have hpos : 0 < 10 ^ places := Nat.pow_pos (by decide)
  have hden : 0 < den := by
    obtain ⟨⟨n, rfl⟩, -⟩ := parts_finite hx
    exact Nat.two_pow_pos n
  unfold roundToPlaces
  generalize 10 ^ places = d at *
  refine roundDiv_eq ?_ ?_
  · by_contra hfar
    -- The double is at least half a place below, and a unit lies in between.
    obtain ⟨j, rfl⟩ : ∃ j, k = j + 1 := Nat.exists_eq_succ_of_ne_zero (by rintro rfl; omega)
    obtain ⟨m, hm, hlow, hhigh⟩ := exists_multiple ((2 * j + 1) * 2 ^ 52) (c := 2 * d) (by omega)
    have hunder : m * d ≤ (j + 1) * 2 ^ 52 := by
      have : 2 * d * m = 2 * (m * d) := by ring
      omega
    have hunit : m ≤ 2 ^ 52 := by
      refine Nat.le_of_mul_le_mul_right (Nat.le_trans hunder ?_) hpos
      rw [Nat.mul_comm]
      exact Nat.mul_le_mul_left _ hk
    have hover : num * 2 ^ 52 < m * den := by
      refine Nat.lt_of_mul_lt_mul_left (a := 2 * d) ?_
      have hhalf : 2 * (num * d) ≤ (2 * j + 1) * den := by
        have : 2 * (j + 1) * den = (2 * j + 1) * den + den := by ring
        omega
      calc 2 * d * (num * 2 ^ 52) = 2 * (num * d) * 2 ^ 52 := by ring
        _ ≤ (2 * j + 1) * den * 2 ^ 52 := Nat.mul_le_mul_right _ hhalf
        _ = (2 * j + 1) * 2 ^ 52 * den := by ring
        _ < 2 * d * m * den := Nat.mul_lt_mul_of_pos_right hlow hden
        _ = 2 * d * (m * den) := by ring
    exact (not_between hpos hx hnearest hm hunit).1 ⟨hover, hunder⟩
  · by_contra hfar
    -- The double is at least half a place above, and a unit lies in between.
    have hfar : (2 * k + 1) * den ≤ 2 * (num * d) := Nat.le_of_not_lt hfar
    obtain ⟨m, hm, hlow, hhigh⟩ := exists_multiple (k * 2 ^ 52) hpos
    have hless : k < d := by
      refine Nat.lt_of_mul_lt_mul_right (a := den) ?_
      have hbound : num * d ≤ d * den := by
        rw [Nat.mul_comm]
        exact Nat.mul_le_mul_left _ hle
      have : (2 * k + 1) * den = 2 * (k * den) + den := by ring
      omega
    have hunit : m ≤ 2 ^ 52 := by
      refine Nat.le_of_mul_le_mul_left ?_ hpos
      calc d * m ≤ k * 2 ^ 52 + d := hhigh
        _ ≤ (k + 1) * 2 ^ 52 := by omega
        _ ≤ d * 2 ^ 52 := Nat.mul_le_mul_right _ hless
    have hunder : m * den < num * 2 ^ 52 := by
      refine Nat.lt_of_mul_lt_mul_left (a := 2 * d) ?_
      calc 2 * d * (m * den) = 2 * (d * m) * den := by ring
        _ < (2 * k + 1) * 2 ^ 52 * den := Nat.mul_lt_mul_of_pos_right (by omega) hden
        _ = (2 * k + 1) * den * 2 ^ 52 := by ring
        _ ≤ 2 * (num * d) * 2 ^ 52 := Nat.mul_le_mul_right _ hfar
        _ = 2 * d * (num * 2 ^ 52) := by ring
    exact (not_between hpos hx hnearest hm hunit).2 ⟨hunder, by rw [Nat.mul_comm m]; omega⟩

/-- A share is rounded to the double nearest to a decimal fraction of at most one. -/
theorem IsShare.exists_round_eq (h : IsShare x) (places : Nat) :
    ∃ k ≤ 10 ^ places, Scalar.round places x = nearest false k (10 ^ places) := by
  obtain ⟨num, den, hx, hle⟩ := h.exists_parts
  exact ⟨_, roundToPlaces_le_pow hle places, round_of_parts hx places⟩

theorem round_zero : Scalar.round 6 (Scalar.zero : Float) = Scalar.zero := by decide +kernel

theorem round_one : Scalar.round 6 (Scalar.one : Float) = Scalar.one := by decide +kernel

/-- **Rounding a share twice is rounding it once.** -/
theorem IsShare.round_round (h : IsShare x) (hplaces : places ≤ 15) :
    Scalar.round places (Scalar.round places x) = Scalar.round places x := by
  obtain ⟨k, hk, hround⟩ := h.exists_round_eq places
  have hshare := h.round places
  rw [hround] at hshare ⊢
  obtain ⟨num, den, hx, hle⟩ := hshare.exists_parts
  rw [round_of_parts hx, roundToPlaces_nearest hplaces hk hx (toBits_nearest_of_le hk) hle]

end Mooring.Decimal
