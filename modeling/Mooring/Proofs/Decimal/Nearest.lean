import Mooring.Proofs.Decimal.Doubles

/-!
# Rounding to a double goes by the value

The double nearest to a fraction depends on what the fraction is worth and not on how it is written
(`nearestBits_congr`), and a double is the nearest one to its own value (`nearest_parts`).

Both come from one fact about the unit in which a fraction has 53 binary digits: there is exactly
one such unit (`IsUnit.unique`), and `unitExponent` finds it (`unitExponent_of_isUnit`).  It follows
at both ends of the range what becomes of a fraction that is too large or too small
(`nearestBits_of_large`, `nearestBits_of_small`).
-/

namespace Mooring.Decimal

variable {num den : Nat}

/-! ## Scaling a fraction -/

theorem roundDiv_scale {k : Nat} (hk : 0 < k) (num den : Nat) :
    roundDiv (k * num) (k * den) = roundDiv num den := by
  have hless : 2 * (k * (num % den)) < k * den ↔ 2 * (num % den) < den := by
    rw [Nat.mul_left_comm]
    exact Nat.mul_lt_mul_left hk
  have hmore : k * den < 2 * (k * (num % den)) ↔ den < 2 * (num % den) := by
    rw [Nat.mul_left_comm]
    exact Nat.mul_lt_mul_left hk
  unfold roundDiv
  simp only [Nat.mul_div_mul_left _ _ hk, Nat.mul_mod_mul_left, hless, hmore]

theorem inUnits_eq (num den : Nat) (q : Int) :
    inUnits num den q = roundDiv (num * 2 ^ (-q).toNat) (den * 2 ^ q.toNat) := by
  unfold inUnits
  split
  next h => rw [show (-q).toNat = 0 by omega, pow_zero, Nat.mul_one]
  next h => rw [show q.toNat = 0 by omega, pow_zero, Nat.mul_one]

theorem wholeUnits_eq (num den : Nat) (q : Int) :
    wholeUnits num den q = num * 2 ^ (-q).toNat / (den * 2 ^ q.toNat) := by
  unfold wholeUnits
  split
  next h => rw [show (-q).toNat = 0 by omega, pow_zero, Nat.mul_one]
  next h => rw [show q.toNat = 0 by omega, pow_zero, Nat.mul_one]

theorem inUnits_scale {k : Nat} (hk : 0 < k) (num den : Nat) (q : Int) :
    inUnits (k * num) (k * den) q = inUnits num den q := by
  rw [inUnits_eq, inUnits_eq, Nat.mul_assoc, Nat.mul_assoc, roundDiv_scale hk]

theorem wholeUnits_scale {k : Nat} (hk : 0 < k) (num den : Nat) (q : Int) :
    wholeUnits (k * num) (k * den) q = wholeUnits num den q := by
  rw [wholeUnits_eq, wholeUnits_eq, Nat.mul_assoc, Nat.mul_assoc, Nat.mul_div_mul_left _ _ hk]

/-! ## The unit with 53 digits -/

/-- In units of two to the power `q` the fraction has 53 binary digits. -/
def IsUnit (num den : Nat) (q : Int) : Prop :=
  2 ^ 52 ≤ wholeUnits num den q ∧ wholeUnits num den q < 2 ^ 53

/-- A unit twice as large takes half as many. -/
theorem wholeUnits_succ (num den : Nat) (q : Int) :
    wholeUnits num den (q + 1) = wholeUnits num den q / 2 := by
  rw [wholeUnits_eq, wholeUnits_eq, Nat.div_div_eq_div_mul]
  rcases Int.lt_or_le q 0 with hq | hq
  · rw [show (-q).toNat = (-(q + 1)).toNat + 1 by omega, show q.toNat = 0 by omega,
      show (q + 1).toNat = 0 by omega, pow_succ, ← Nat.mul_assoc,
      Nat.mul_div_mul_right _ _ (by omega)]
  · rw [show (q + 1).toNat = q.toNat + 1 by omega, show (-(q + 1)).toNat = 0 by omega,
      show (-q).toNat = 0 by omega, pow_succ, Nat.mul_assoc den]

theorem wholeUnits_add (num den : Nat) (q : Int) (n : Nat) :
    wholeUnits num den (q + n) = wholeUnits num den q / 2 ^ n := by
  induction n with
  | zero => simp
  | succ n ih =>
    rw [Int.natCast_succ, ← Int.add_assoc, wholeUnits_succ, ih, Nat.div_div_eq_div_mul, pow_succ]

theorem IsUnit.le {q q' : Int} (h : IsUnit num den q) (h' : IsUnit num den q') : q' ≤ q := by
  by_contra hlt
  -- In a larger unit the fraction would have at most 52 digits.
  obtain ⟨n, hn⟩ := Int.le.dest (show q + 1 ≤ q' by omega)
  have hunits := wholeUnits_add num den (q + 1) n
  rw [hn, wholeUnits_succ] at hunits
  have hhalf : wholeUnits num den q / 2 / 2 ^ n ≤ wholeUnits num den q / 2 := Nat.div_le_self _ _
  have := h.2
  have := h'.1
  omega

/-- **At most one unit gives a fraction 53 digits.** -/
theorem IsUnit.unique {q q' : Int} (h : IsUnit num den q) (h' : IsUnit num den q') : q = q' :=
  Int.le_antisymm (h'.le h) (h.le h')

theorem IsUnit.scale {k : Nat} (hk : 0 < k) {q : Int} :
    IsUnit (k * num) (k * den) q ↔ IsUnit num den q := by
  unfold IsUnit
  rw [wholeUnits_scale hk]

/-- The first guess is right, or one too large. -/
theorem guess_bounds (hnum : 0 < num) (hden : 0 < den) :
    2 ^ 51 ≤ wholeUnits num den ((num.log2 : Int) - den.log2 - 52) ∧
      wholeUnits num den ((num.log2 : Int) - den.log2 - 52) < 2 ^ 53 := by
  have hnum₁ := Nat.log2_self_le (n := num) (by omega)
  have hnum₂ := Nat.lt_log2_self (n := num)
  have hden₁ := Nat.log2_self_le (n := den) (by omega)
  have hden₂ := Nat.lt_log2_self (n := den)
  rw [wholeUnits_eq]
  generalize hq : (num.log2 : Int) - den.log2 - 52 = q
  have hpow : num.log2 + (-q).toNat = den.log2 + q.toNat + 52 := by omega
  have hpos : 0 < den * 2 ^ q.toNat := Nat.mul_pos hden (Nat.two_pow_pos _)
  -- Numerator and denominator lie between neighbouring powers of two; both are brought to
  -- the unit, and the quotient lies between the quotients of the bounds.
  have hnum₁' := Nat.mul_le_mul_right (2 ^ (-q).toNat) hnum₁
  have hnum₂' := Nat.mul_lt_mul_of_pos_right hnum₂ (Nat.two_pow_pos (-q).toNat)
  have hden₁' := Nat.mul_le_mul_right (2 ^ q.toNat) hden₁
  have hden₂' := Nat.mul_lt_mul_of_pos_right hden₂ (Nat.two_pow_pos q.toNat)
  rw [← Nat.pow_add] at hnum₁' hnum₂' hden₁' hden₂'
  constructor
  · rw [Nat.le_div_iff_mul_le hpos]
    refine Nat.le_trans ?_ hnum₁'
    rw [hpow, show den.log2 + q.toNat + 52 = 51 + (den.log2 + 1 + q.toNat) by omega, Nat.pow_add]
    exact Nat.mul_le_mul_left _ (Nat.le_of_lt hden₂')
  · rw [Nat.div_lt_iff_lt_mul hpos]
    refine Nat.lt_of_lt_of_le hnum₂' ?_
    rw [show num.log2 + 1 + (-q).toNat = 53 + (den.log2 + q.toNat) by omega, Nat.pow_add]
    exact Nat.mul_le_mul_left _ hden₁'

/-- Every fraction above zero has 53 digits in some unit, the one that `unitExponent` finds. -/
theorem exists_isUnit (hnum : 0 < num) (hden : 0 < den) :
    ∃ q, IsUnit num den q ∧ unitExponent num den = max q (-1074) := by
  obtain ⟨hlow, hhigh⟩ := guess_bounds hnum hden
  unfold unitExponent
  dsimp only
  split
  next hsmall =>
    -- The guess was one too large; half the unit takes twice as many.
    refine ⟨_, ?_, rfl⟩
    have hhalf := wholeUnits_succ num den ((num.log2 : Int) - den.log2 - 52 - 1)
    rw [Int.sub_add_cancel] at hhalf
    unfold IsUnit
    omega
  next hsmall => exact ⟨_, ⟨Nat.le_of_not_lt hsmall, hhigh⟩, rfl⟩

theorem IsUnit.pos {q : Int} (h : IsUnit num den q) : 0 < num ∧ 0 < den := by
  obtain ⟨hlow, -⟩ := h
  rw [wholeUnits_eq] at hlow
  constructor
  · rcases Nat.eq_zero_or_pos num with rfl | hpos
    · simp at hlow
    · exact hpos
  · rcases Nat.eq_zero_or_pos den with rfl | hpos
    · simp at hlow
    · exact hpos

/-- **The exponent that is found is the one of the unit, but not below the smallest.** -/
theorem unitExponent_of_isUnit {q : Int} (h : IsUnit num den q) :
    unitExponent num den = max q (-1074) := by
  obtain ⟨q', hunit, hq'⟩ := exists_isUnit h.pos.1 h.pos.2
  rw [hq', hunit.unique h]

/-- The bits of the nearest double, in the unit of the fraction. -/
theorem nearestBits_of_isUnit {q : Int} (h : IsUnit num den q) :
    nearestBits num den =
      if 971 < q then 2047 * 2 ^ 52
      else
        let mantissa := inUnits num den (max q (-1074))
        min (if mantissa < 2 ^ 52 then mantissa
          else (max q (-1074) + 1074).toNat * 2 ^ 52 + mantissa) (2047 * 2 ^ 52) := by
  have hmax : 971 < max q (-1074) ↔ 971 < q := by omega
  unfold nearestBits
  rw [if_neg (Nat.pos_iff_ne_zero.mp h.pos.1), unitExponent_of_isUnit h]
  simp only [hmax]

/-! ## The nearest double goes by the value -/

theorem nearestBits_scale {k : Nat} (hk : 0 < k) (hden : 0 < den) :
    nearestBits (k * num) (k * den) = nearestBits num den := by
  rcases Nat.eq_zero_or_pos num with rfl | hnum
  · rfl
  · obtain ⟨q, hunit, -⟩ := exists_isUnit hnum hden
    rw [nearestBits_of_isUnit hunit, nearestBits_of_isUnit ((IsUnit.scale hk).mpr hunit)]
    simp only [inUnits_scale hk]

/-- **Fractions of the same value have the same nearest double.** -/
theorem nearestBits_congr {num' den' : Nat} (hden : 0 < den) (hden' : 0 < den')
    (h : num * den' = num' * den) : nearestBits num den = nearestBits num' den' := by
  rw [← nearestBits_scale hden' hden, ← nearestBits_scale hden hden', Nat.mul_comm den' num, h,
    Nat.mul_comm num' den, Nat.mul_comm den' den]

/-! ## A double is nearest to its own value -/

theorem roundDiv_mul {k : Nat} (hk : 0 < k) (m : Nat) : roundDiv (m * k) k = m := by
  unfold roundDiv
  simp only [Nat.mul_div_cancel m hk, Nat.mul_mod_left]
  rw [if_pos (by omega)]

/-- The fraction is `m` units of two to the power `q`. -/
def Measures (num den m : Nat) (q : Int) : Prop :=
  0 < den ∧ num * 2 ^ (-q).toNat = m * (den * 2 ^ q.toNat)

theorem measures_two_pow (m k : Nat) : Measures m (2 ^ k) m (-(k : Int)) := by
  refine ⟨Nat.two_pow_pos k, ?_⟩
  rw [Int.neg_neg, Int.toNat_natCast, show (-(k : Int)).toNat = 0 by omega, pow_zero, Nat.mul_one]

theorem Measures.inUnits {m : Nat} {q : Int} (h : Measures num den m q) :
    inUnits num den q = m := by
  rw [inUnits_eq, h.2, roundDiv_mul (Nat.mul_pos h.1 (Nat.two_pow_pos _))]

theorem Measures.wholeUnits {m : Nat} {q : Int} (h : Measures num den m q) :
    wholeUnits num den q = m := by
  rw [wholeUnits_eq, h.2, Nat.mul_div_cancel m (Nat.mul_pos h.1 (Nat.two_pow_pos _))]

/-- A whole mantissa of 53 digits is kept, with its exponent. -/
theorem Measures.nearestBits_normal {m : Nat} {q : Int} (h : Measures num den m q)
    (hm : 2 ^ 52 ≤ m) (hm' : m < 2 ^ 53) (hq : -1074 ≤ q) (hq' : q ≤ 971) :
    nearestBits num den = (q + 1074).toNat * 2 ^ 52 + m := by
  have hunit : IsUnit num den q := by
    unfold IsUnit
    rw [h.wholeUnits]
    exact ⟨hm, hm'⟩
  have hmax : max q (-1074) = q := by omega
  rw [nearestBits_of_isUnit hunit, if_neg (by omega), hmax, h.inUnits]
  dsimp only
  rw [if_neg (by omega)]
  omega

/-- A shorter mantissa is kept in the smallest unit. -/
theorem Measures.nearestBits_subnormal {m : Nat} (h : Measures num den m (-1074))
    (hm : m < 2 ^ 52) : nearestBits num den = m := by
  rcases Nat.eq_zero_or_pos num with hzero | hnum
  · have hm' := h.wholeUnits
    rw [wholeUnits_eq, hzero, Nat.zero_mul, Nat.zero_div] at hm'
    unfold nearestBits
    rw [if_pos hzero]
    exact hm'
  · obtain ⟨q, hunit, -⟩ := exists_isUnit hnum h.1
    -- With a mantissa this short the unit of 53 digits lies below the smallest one.
    have hq : q < -1074 := by
      by_contra hge
      obtain ⟨n, hn⟩ := Int.le.dest (show -1074 ≤ q by omega)
      have hunits := wholeUnits_add num den (-1074) n
      rw [hn, h.wholeUnits] at hunits
      have hle : m / 2 ^ n ≤ m := Nat.div_le_self _ _
      have := hunit.1
      omega
    have hmax : max q (-1074) = -1074 := by omega
    rw [nearestBits_of_isUnit hunit, if_neg (by omega), hmax, h.inUnits]
    dsimp only
    rw [if_pos hm]
    omega

theorem carry_fraction {field fraction : Nat} (h : field ≠ 0) :
    field * 2 ^ 52 + fraction = (field - 1) * 2 ^ 52 + (fraction + 2 ^ 52) := by
  omega

/-- A mantissa and an exponent as a double has them: the mantissa has 53 binary digits, or fewer
in the smallest unit. -/
structure Canonical (m : Nat) (e : Int) : Prop where
  lt : m < 2 ^ 53
  le : -1074 ≤ e
  full : 2 ^ 52 ≤ m ∨ e = -1074

/-- The nearest double keeps a mantissa with its exponent. -/
theorem Canonical.nearestBits_eq {m : Nat} {e : Int} (h : Canonical m e) (he : e ≤ 971)
    (hvalue : Measures num den m e) : nearestBits num den = (e + 1074).toNat * 2 ^ 52 + m := by
  rcases Nat.lt_or_ge m (2 ^ 52) with hshort | hlong
  · obtain rfl := h.full.resolve_left (Nat.not_le.mpr hshort)
    rw [hvalue.nearestBits_subnormal hshort]
    exact (Nat.zero_add m).symm
  · exact hvalue.nearestBits_normal hlong h.lt h.le he

/-- What the bits of a finite double say about its value: the denominator is a power of two, and
the value is a mantissa in some unit. -/
theorem parts_measures {x : Float} {negative : Bool} (h : parts x = .finite negative num den) :
    (∃ k, den = 2 ^ k) ∧ ∃ m e, Measures num den m e ∧ Canonical m e ∧ e ≤ 971 ∧
      x.toBits.toNat = (e + 1074).toNat * 2 ^ 52 + m + if negative then 2 ^ 63 else 0 := by
  have hlt : x.toBits.toNat < 2 ^ 64 := x.toBits.toNat_lt
  have hsign : (if decide (2 ^ 63 ≤ x.toBits.toNat) = true then 2 ^ 63 else 0) =
      x.toBits.toNat / 2 ^ 63 * 2 ^ 63 := by
    by_cases hneg : 2 ^ 63 ≤ x.toBits.toNat
    · rw [if_pos (decide_eq_true hneg)]
      omega
    · rw [if_neg (by simpa using hneg)]
      omega
  unfold parts at h
  dsimp only at h
  -- Only the three fields of the bits matter from here on.
  generalize hfield : x.toBits.toNat / 2 ^ 52 % 2 ^ 11 = field at h
  generalize hfraction : x.toBits.toNat % 2 ^ 52 = fraction at h
  have hfraction' : fraction < 2 ^ 52 := by omega
  have hbits : x.toBits.toNat = field * 2 ^ 52 + fraction + x.toBits.toNat / 2 ^ 63 * 2 ^ 63 := by
    omega
  split at h
  next hspecial =>
    split at h
    · exact Parts.noConfusion h
    · exact Parts.noConfusion h
  next hspecial =>
    split at h
    next hzero =>
      -- A subnormal double: its fraction counts the smallest units.
      obtain ⟨rfl, rfl, rfl⟩ := Parts.finite.inj h
      have hmeasures := measures_two_pow fraction 1074
      rw [show -((1074 : Nat) : Int) = -1074 from rfl] at hmeasures
      refine ⟨⟨1074, rfl⟩, fraction, -1074, hmeasures, ⟨by omega, by omega, Or.inr rfl⟩,
        by omega, ?_⟩
      rw [hsign]
      rw [hzero] at hbits
      exact hbits
    next hzero =>
      have hexponent : ((field : Int) - 1075 + 1074).toNat = field - 1 := by omega
      have hcanonical : Canonical (fraction + 2 ^ 52) ((field : Int) - 1075) :=
        ⟨by omega, by omega, Or.inl (by omega)⟩
      have hcarry : x.toBits.toNat = ((field : Int) - 1075 + 1074).toNat * 2 ^ 52 +
          (fraction + 2 ^ 52) + x.toBits.toNat / 2 ^ 63 * 2 ^ 63 := by
        rw [hexponent, ← carry_fraction hzero]
        exact hbits
      split at h
      next hlarge =>
        -- A whole number: the unit goes into the numerator.
        obtain ⟨rfl, rfl, rfl⟩ := Parts.finite.inj h
        have hmeasures : Measures ((fraction + 2 ^ 52) * 2 ^ (field - 1075)) 1 (fraction + 2 ^ 52)
            ((field : Int) - 1075) := by
          refine ⟨Nat.one_pos, ?_⟩
          rw [show (-((field : Int) - 1075)).toNat = 0 by omega,
            show ((field : Int) - 1075).toNat = field - 1075 by omega, pow_zero, Nat.mul_one,
            Nat.one_mul]
        rw [hsign]
        exact ⟨⟨0, rfl⟩, _, _, hmeasures, hcanonical, by omega, hcarry⟩
      next hlarge =>
        -- The unit goes into the denominator.
        obtain ⟨rfl, rfl, rfl⟩ := Parts.finite.inj h
        have hmeasures := measures_two_pow (fraction + 2 ^ 52) (1075 - field)
        rw [show -((1075 - field : Nat) : Int) = (field : Int) - 1075 by omega] at hmeasures
        rw [hsign]
        exact ⟨⟨1075 - field, rfl⟩, _, _, hmeasures, hcanonical, by omega, hcarry⟩

/-- What the bits of a finite double say about its value: the denominator is a power of two, and
the value rounds to the bits. -/
theorem parts_finite {x : Float} {negative : Bool} (h : parts x = .finite negative num den) :
    (∃ k, den = 2 ^ k) ∧ x.toBits.toNat = nearestBits num den + if negative then 2 ^ 63 else 0 := by
  obtain ⟨hpow, m, e, hvalue, hcanonical, he, hbits⟩ := parts_measures h
  rw [hcanonical.nearestBits_eq he hvalue]
  exact ⟨hpow, hbits⟩

/-- **A finite double is the nearest one to its own value.** -/
theorem nearest_parts {x : Float} {negative : Bool} (h : parts x = .finite negative num den) :
    nearest negative num den = x := by
  unfold nearest
  rw [← (parts_finite h).2, ofNat_toBits]

/-! ## The ends of the range -/

theorem le_wholeUnits_iff (hden : 0 < den) {k : Nat} {q : Int} :
    k ≤ wholeUnits num den q ↔ k * (den * 2 ^ q.toNat) ≤ num * 2 ^ (-q).toNat := by
  rw [wholeUnits_eq, Nat.le_div_iff_mul_le (Nat.mul_pos hden (Nat.two_pow_pos _))]

/-- A fraction beyond all doubles goes to infinity. -/
theorem nearestBits_of_large (hden : 0 < den) (h : den * 2 ^ 1024 ≤ num) :
    nearestBits num den = 2047 * 2 ^ 52 := by
  have hnum : 0 < num := Nat.lt_of_lt_of_le (Nat.mul_pos hden (Nat.two_pow_pos _)) h
  obtain ⟨q, hunit, -⟩ := exists_isUnit hnum hden
  have hq : 971 < q := by
    by_contra hle
    obtain ⟨n, hn⟩ := Int.le.dest (show q ≤ 971 by omega)
    have hunits := wholeUnits_add num den q n
    have hlarge : 2 ^ 53 ≤ wholeUnits num den 971 := by
      rw [le_wholeUnits_iff hden, show (-971 : Int).toNat = 0 from rfl, pow_zero, Nat.mul_one,
        show (971 : Int).toNat = 971 from rfl, Nat.mul_left_comm, ← Nat.pow_add,
        show 53 + 971 = 1024 from rfl]
      exact h
    clear h
    rw [hn] at hunits
    have hle' : wholeUnits num den q / 2 ^ n ≤ wholeUnits num den q := Nat.div_le_self _ _
    have := hunit.2
    omega
  rw [nearestBits_of_isUnit hunit, if_pos hq]

/-- A fraction closer to zero than to any other double goes to zero. -/
theorem nearestBits_of_small (hden : 0 < den) (h : num * 2 ^ 1076 ≤ den) :
    nearestBits num den = 0 := by
  rcases Nat.eq_zero_or_pos num with rfl | hnum
  · rfl
  · have hfraction : num * 2 ^ 1074 * 2 ^ 2 ≤ den := by
      rw [Nat.mul_assoc, ← Nat.pow_add, show 1074 + 2 = 1076 from rfl]
      exact h
    clear h
    have hrounded : inUnits num den (-1074) = 0 := by
      rw [inUnits_eq, show (-1074 : Int).toNat = 0 from rfl, pow_zero, Nat.mul_one,
        show (-(-1074) : Int).toNat = 1074 from rfl]
      generalize num * 2 ^ 1074 = scaled at hfraction
      unfold roundDiv
      have hlt : scaled < den := by omega
      simp only [Nat.div_eq_of_lt hlt, Nat.mod_eq_of_lt hlt]
      rw [if_pos (by omega)]
    obtain ⟨q, hunit, -⟩ := exists_isUnit hnum hden
    have hq : q < -1074 := by
      by_contra hge
      obtain ⟨n, hn⟩ := Int.le.dest (show -1074 ≤ q by omega)
      have hunits := wholeUnits_add num den (-1074) n
      have hsmall : wholeUnits num den (-1074) = 0 := by
        rw [wholeUnits_eq, show (-1074 : Int).toNat = 0 from rfl, pow_zero, Nat.mul_one,
          show (-(-1074) : Int).toNat = 1074 from rfl]
        generalize num * 2 ^ 1074 = scaled at hfraction
        exact Nat.div_eq_of_lt (by omega)
      rw [hn, hsmall, Nat.zero_div] at hunits
      have := hunit.1
      omega
    have hmax : max q (-1074) = -1074 := by omega
    rw [nearestBits_of_isUnit hunit, if_neg (by omega), hmax, hrounded]
    rfl

end Mooring.Decimal
