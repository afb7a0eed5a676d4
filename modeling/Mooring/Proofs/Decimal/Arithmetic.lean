import Mooring.Proofs.Decimal.Monotone

/-!
# The arithmetic of doubles

The built-in sum, product and quotient of doubles shift and round mantissas; `nearest` rounds
fractions.  For doubles without a sign the two agree: a sum, a product and a quotient are the
doubles nearest to the exact ones (`toBits_add`, `toBits_mul`, `toBits_div`).

A double is looked at in three ways for this, as its bits, as a mantissa with an exponent, and as a
fraction.  `Canonical` and `bitsOf` say what the first two have to do with each other, `Measures`
what the last two have.  What a shift or a division drops is told by two residual bits
(`quotientMantissa`), and that is enough to round to the nearest
(`roundedMantissa_quotientMantissa`).
-/

namespace Mooring.Decimal

open Float.Model (Format totalExponent)
open Float.Model.UnpackedFloat

variable {num den m : Nat} {e : Int}

/-! ## Rounding a quotient -/

/-- A quotient as a mantissa: its whole part, and in the two residual bits how the rest compares to
one half. -/
def quotientMantissa (num den : Nat) : ExtendedMantissa :=
  ⟨num / den, decide (den ≤ 2 * (num % den)), decide (num % den ≠ 0 ∧ 2 * (num % den) ≠ den)⟩

/-- A quotient that is shifted by one is halved. -/
theorem shiftRightOne_quotientMantissa (hden : 0 < den) :
    (quotientMantissa num den).shiftRightOne = quotientMantissa num (den * 2) := by
  have hrest : num % den < den := Nat.mod_lt _ hden
  have hmod : num % (den * 2) = num % den + den * (num / den % 2) := Nat.mod_mul
  unfold quotientMantissa ExtendedMantissa.shiftRightOne
  rw [hmod, ← Nat.div_div_eq_div_mul]
  generalize num % den = rest at *
  -- The bit that goes out decides on which side of one half the new rest is.
  rcases Nat.mod_two_eq_zero_or_one (num / den) with hbit | hbit <;> rw [hbit] <;>
    simp only [ExtendedMantissa.mk.injEq, true_and, bne_self_eq_false] <;>
    constructor <;> grind

/-- **Shifting a quotient is dividing it.** -/
theorem shiftRight_quotientMantissa (hden : 0 < den) (k : Nat) :
    quotientMantissa num den >>> k = quotientMantissa num (den * 2 ^ k) := by
  induction k with
  | zero =>
    rw [pow_zero, Nat.mul_one]
    rfl
  | succ k ih =>
    have hstep : quotientMantissa num den >>> (k + 1) =
        (quotientMantissa num den >>> k).shiftRightOne := rfl
    rw [hstep, ih, shiftRightOne_quotientMantissa (Nat.mul_pos hden (Nat.two_pow_pos k)), pow_succ,
      Nat.mul_assoc]

/-- **The residual bits are enough to round to the nearest.** -/
theorem roundedMantissa_quotientMantissa (hden : 0 < den) :
    (quotientMantissa num den).roundedMantissa = roundDiv num den := by
  have hrest : num % den < den := Nat.mod_lt _ hden
  unfold quotientMantissa roundDiv
  dsimp only
  rcases Nat.lt_trichotomy (2 * (num % den)) den with hlt | heq | hgt
  · rw [if_pos hlt, decide_eq_false (Nat.not_le.mpr hlt)]
    by_cases hzero : num % den = 0
    · rw [decide_eq_false (by simp [hzero])]
      rfl
    · rw [decide_eq_true ⟨hzero, Nat.ne_of_lt hlt⟩]
      rfl
  · rw [if_neg (Nat.not_lt.mpr (Nat.le_of_eq heq.symm)), if_neg (Nat.not_lt.mpr (Nat.le_of_eq heq)),
      decide_eq_true (Nat.le_of_eq heq.symm), decide_eq_false fun h => h.2 heq]
    show num / den + num / den % 2 = _
    split
    next heven => rw [beq_iff_eq.mp heven, Nat.add_zero]
    next hodd => rw [Nat.mod_two_ne_zero.mp (by simpa using hodd)]
  · rw [if_neg (Nat.not_lt.mpr (Nat.le_of_lt hgt)), if_pos hgt,
      decide_eq_true (Nat.le_of_lt hgt), decide_eq_true ⟨by omega, Nat.ne_of_gt hgt⟩]
    rfl

/-- What a division leaves is told by the residual bits. -/
theorem ofMantissaAndAccuracy_quotient (hden : 0 < den) :
    ExtendedMantissa.ofMantissaAndAccuracy (num / den) (accuracyOfFraction (num % den) den) =
      quotientMantissa num den := by
  unfold quotientMantissa accuracyOfFraction
  split
  next hexact =>
    rw [hexact, decide_eq_false (by omega), decide_eq_false (by simp)]
    rfl
  next hrest =>
    rcases Nat.lt_trichotomy (2 * (num % den)) den with hlt | heq | hgt
    · rw [Nat.compare_eq_lt.mpr hlt, decide_eq_false (Nat.not_le.mpr hlt),
        decide_eq_true ⟨hrest, Nat.ne_of_lt hlt⟩]
      rfl
    · rw [Nat.compare_eq_eq.mpr heq, decide_eq_true (Nat.le_of_eq heq.symm),
        decide_eq_false fun h => h.2 heq]
      rfl
    · rw [Nat.compare_eq_gt.mpr hgt, decide_eq_true (Nat.le_of_lt hgt),
        decide_eq_true ⟨hrest, Nat.ne_of_gt hgt⟩]
      rfl

/-! ## The unit of a mantissa -/

theorem targetExponent_eq (m : Nat) (e : Int) :
    Format.binary64.targetExponent (totalExponent m e) = max ((m.log2 : Int) + e - 52) (-1074) := by
  show max ((m.log2 : Int) + 1 + e - 53) (-1074) = _
  congr 1
  omega

/-- An exponent may be any difference of two others. -/
theorem exists_shift {a b : Nat} (he : e = b - a) :
    ∃ c, a = (-e).toNat + c ∧ b = e.toNat + c :=
  ⟨min a b, by omega, by omega⟩

theorem measures_iff {a b : Nat} (he : e = b - a) :
    Measures num den m e ↔ 0 < den ∧ num * 2 ^ a = m * (den * 2 ^ b) := by
  obtain ⟨c, ha, hb⟩ := exists_shift he
  rw [ha, hb, Nat.pow_add, Nat.pow_add, ← Nat.mul_assoc num, ← Nat.mul_assoc den,
    ← Nat.mul_assoc m, Nat.mul_left_inj (Nat.pos_iff_ne_zero.mp (Nat.two_pow_pos c))]
  exact Iff.rfl

theorem inUnits_of_exponent {a b : Nat} (he : e = b - a) (num den : Nat) :
    inUnits num den e = roundDiv (num * 2 ^ a) (den * 2 ^ b) := by
  obtain ⟨c, ha, hb⟩ := exists_shift he
  rw [inUnits_eq, ha, hb, Nat.pow_add, Nat.pow_add, ← Nat.mul_assoc num, ← Nat.mul_assoc den,
    Nat.mul_comm _ (2 ^ c), Nat.mul_comm _ (2 ^ c), roundDiv_scale (Nat.two_pow_pos c)]

/-- Every exponent is such a difference. -/
theorem exists_exponent (e : Int) : ∃ a b : Nat, e = b - a :=
  ⟨(-e).toNat, e.toNat, by omega⟩

/-- The same value in a smaller unit. -/
theorem Measures.finer (h : Measures num den m e) (k : Nat) :
    Measures num den (m * 2 ^ k) (e - k) := by
  obtain ⟨a, b, he⟩ := exists_exponent e
  obtain ⟨hden, hvalue⟩ := (measures_iff he).mp h
  refine (measures_iff (show e - k = b - (a + k : Nat) by omega)).mpr ⟨hden, ?_⟩
  calc num * 2 ^ (a + k) = num * 2 ^ a * 2 ^ k := by ring
    _ = m * 2 ^ k * (den * 2 ^ b) := by
        rw [hvalue]
        ring

/-- A quotient of units, rounded in a larger unit. -/
theorem Measures.inUnits_quotient {n d : Nat} (h : Measures (num * d) den n e) (hd : 0 < d)
    (k : Nat) : Decimal.inUnits num den (e + k) = roundDiv n (d * 2 ^ k) := by
  obtain ⟨a, b, he⟩ := exists_exponent e
  obtain ⟨hden, hvalue⟩ := (measures_iff he).mp h
  rw [inUnits_of_exponent (show e + k = (b + k : Nat) - a by omega), ← roundDiv_scale hd,
    ← roundDiv_scale (Nat.mul_pos hden (Nat.two_pow_pos b)) n]
  congr 1
  · calc d * (num * 2 ^ a) = num * d * 2 ^ a := by ring
      _ = den * 2 ^ b * n := by rw [hvalue, Nat.mul_comm]
  · ring

/-- A quotient of units, rounded down. -/
theorem Measures.wholeUnits_quotient {n d : Nat} (h : Measures (num * d) den n e) (hd : 0 < d) :
    Decimal.wholeUnits num den e = n / d := by
  obtain ⟨hden, hvalue⟩ := h
  have hunit : 0 < den * 2 ^ e.toNat := Nat.mul_pos hden (Nat.two_pow_pos _)
  rw [wholeUnits_eq, ← Nat.mul_div_mul_right _ _ hd, ← Nat.mul_div_mul_left n d hunit]
  congr 1
  calc num * 2 ^ (-e).toNat * d = num * d * 2 ^ (-e).toNat := by ring
    _ = den * 2 ^ e.toNat * n := by rw [hvalue, Nat.mul_comm]

/-- The length of the whole part tells the unit, if there are no digits to add. -/
theorem IsUnit.max_eq {q : Int} (h : IsUnit num den q) (hwhole : wholeUnits num den e = m)
    (he : e ≤ max ((m.log2 : Int) + e - 52) (-1074)) :
    max q (-1074) = max ((m.log2 : Int) + e - 52) (-1074) := by
  rcases Nat.lt_or_ge m (2 ^ 52) with hshort | hlong
  · -- Then the unit is smaller than any that a double has.
    have hlog : m.log2 < 52 := by
      rcases Nat.eq_zero_or_pos m with rfl | hpos
      · decide
      · exact (Nat.log2_lt (by omega)).mpr hshort
    have hq : q < e := by
      by_contra hle
      obtain ⟨n, hn⟩ := Int.le.dest (show e ≤ q by omega)
      have hunits := wholeUnits_add num den e n
      rw [hn, hwhole] at hunits
      have hself : m / 2 ^ n ≤ m := Nat.div_le_self _ _
      have := h.1
      omega
    omega
  · have hpos : m ≠ 0 := by omega
    obtain ⟨k, hk⟩ := Nat.le.dest ((Nat.le_log2 hpos).mpr hlong)
    have hunit : IsUnit num den (e + k) := by
      unfold IsUnit
      rw [wholeUnits_add, hwhole, Nat.le_div_iff_mul_le (Nat.two_pow_pos k),
        Nat.div_lt_iff_lt_mul (Nat.two_pow_pos k), ← Nat.pow_add, ← Nat.pow_add,
        show 53 + k = m.log2 + 1 by omega, hk]
      exact ⟨Nat.log2_self_le hpos, Nat.lt_log2_self⟩
    rw [h.unique hunit, show (m.log2 : Int) + e - 52 = e + k by omega]

/-! ## The bits of a mantissa and an exponent -/

/-- A mantissa that rounding carried to the 54th digit. -/
theorem bitsOf_carry (h : -1074 ≤ e) : bitsOf (2 ^ 53) e = bitsOf (2 ^ 52) (e + 1) := by
  unfold bitsOf
  rw [show (e + 1 + 1074).toNat = (e + 1074).toNat + 1 by omega]
  omega

theorem toNat_packComponents (exponent : BitVec 11) (mantissa : BitVec 52) :
    (packComponents Format.binary64 .positive exponent mantissa).toNat =
      exponent.toNat * 2 ^ 52 + mantissa.toNat := by
  show (0#1 ++ exponent ++ mantissa).toNat = _
  rw [BitVec.toNat_append, BitVec.toNat_append, ← Nat.shiftLeft_add_eq_or_of_lt mantissa.isLt,
    Nat.shiftLeft_eq]
  show (0 <<< 11 ||| exponent.toNat) * 2 ^ 52 + mantissa.toNat = _
  rw [Nat.zero_shiftLeft, Nat.zero_or]

theorem toNat_pack (h : Canonical m e) (hm : 0 < m) :
    (pack Format.binary64 (.finite .positive m e hm)).toNat = bitsOf m e := by
  obtain ⟨hlt, hle, hfull⟩ := h
  have hbiased : (e + (1023 : Nat) + (52 : Nat)).toNat = (e + 1074).toNat + 1 := by omega
  have hlog : m.log2 + 1 = 53 ↔ 2 ^ 52 ≤ m := by
    rw [show m.log2 + 1 = 53 ↔ m.log2 = 52 by omega, Nat.log2_eq_iff (by omega)]
    omega
  have hsmallest : ¬m.log2 + 1 = 53 → (e + 1074).toNat = 0 := fun hshort => by
    have := hfull.resolve_left (mt hlog.mpr hshort)
    omega
  unfold bitsOf
  rw [pack]
  show (if 2 ^ 11 ≤ (e + (1023 : Nat) + (52 : Nat)).toNat + 1 then
      packComponents Format.binary64 .positive (-1#_) 0
    else if m.log2 + 1 = 53 then
      packComponents Format.binary64 .positive
        (BitVec.ofNat 11 (e + (1023 : Nat) + (52 : Nat)).toNat) (BitVec.ofNat 52 m)
    else packComponents Format.binary64 .positive 0#_ (BitVec.ofNat 52 m)).toNat = _
  rw [hbiased]
  generalize (e + 1074).toNat = biased at *
  split
  next hlarge =>
    rw [toNat_packComponents]
    show 2047 * 2 ^ 52 + 0 = _
    omega
  next hlarge =>
    split
    next hnormal =>
      rw [toNat_packComponents, BitVec.toNat_ofNat, BitVec.toNat_ofNat]
      have := hlog.mp hnormal
      omega
    next hshort =>
      rw [toNat_packComponents, BitVec.toNat_ofNat, hsmallest hshort]
      have := mt hlog.mpr hshort
      show 0 * 2 ^ 52 + m % 2 ^ 52 = _
      omega

/-! ## Rounding a mantissa to a double -/

theorem shiftToTargetExponent_eq {t : Int} (ht : Format.binary64.targetExponent
    (totalExponent m e) = t) {k : Nat} (hk : (t - e).toNat = k) (accuracy : Accuracy) :
    shiftToTargetExponent Format.binary64 m e accuracy =
      (ExtendedMantissa.ofMantissaAndAccuracy m accuracy >>> k, e + k) := by
  subst ht hk
  rfl

/-- A rounded mantissa is shifted once more if rounding carried it, and not otherwise. -/
theorem shiftToTargetExponent_rounded (hm : m ≤ 2 ^ 53) (he : -1074 ≤ e) :
    (m < 2 ^ 53 ∧ shiftToTargetExponent Format.binary64 m e .exact = (⟨m, false, false⟩, e)) ∨
      (m = 2 ^ 53 ∧
        shiftToTargetExponent Format.binary64 m e .exact = (⟨2 ^ 52, false, false⟩, e + 1)) := by
  rcases Nat.lt_or_eq_of_le hm with hlt | rfl
  · refine Or.inl ⟨hlt, ?_⟩
    have hlog : m.log2 ≤ 52 := by
      rcases Nat.eq_zero_or_pos m with rfl | hpos
      · decide
      · have := (Nat.log2_lt (by omega)).mpr hlt
        omega
    rw [shiftToTargetExponent_eq (targetExponent_eq m e) (k := 0) (by omega), Int.natCast_zero,
      Int.add_zero]
    rfl
  · refine Or.inr ⟨rfl, ?_⟩
    rw [shiftToTargetExponent_eq (targetExponent_eq _ e) (k := 1)
      (by rw [Nat.log2_two_pow]; omega)]
    rfl

theorem toNat_pack_rounded (hm : m ≤ 2 ^ 53) (he : -1074 ≤ e) (hfull : 2 ^ 52 ≤ m ∨ e = -1074) :
    (pack Format.binary64
      (if h : (shiftToTargetExponent Format.binary64 m e .exact).1.mantissa = 0 then .zero .positive
        else .finite .positive _ (shiftToTargetExponent Format.binary64 m e .exact).2
          (Nat.pos_of_ne_zero h))).toNat = bitsOf m e := by
  rcases shiftToTargetExponent_rounded hm he with ⟨hlt, hshift⟩ | ⟨rfl, hshift⟩
  · simp only [hshift]
    split
    next hzero =>
      rw [hzero] at hfull ⊢
      rw [hfull.resolve_left (by decide)]
      rfl
    next hzero => exact toNat_pack ⟨hlt, he, hfull⟩ _
  · simp only [hshift]
    rw [dif_neg (by decide), bitsOf_carry he]
    exact toNat_pack ⟨by decide, by omega, Or.inl (Nat.le_refl _)⟩ _

/-- **Rounding a quotient of units gives the bits of the nearest double**, if there are no digits to
add. -/
theorem toNat_pack_quotient {n d : Nat} (h : Measures (num * d) den n e) (hn : 0 < n) (hd : 0 < d)
    (he : e ≤ max (((n / d).log2 : Int) + e - 52) (-1074)) :
    (pack Format.binary64 (roundWithAccuracy Format.binary64 .positive (n / d) e
      (accuracyOfFraction (n % d) d))).toNat = nearestBits num den := by
  have hnum : 0 < num := by
    rcases Nat.eq_zero_or_pos num with rfl | hpos
    · have hvalue := h.2
      rw [Nat.zero_mul, Nat.zero_mul] at hvalue
      have := Nat.mul_pos hn (Nat.mul_pos h.1 (Nat.two_pow_pos e.toNat))
      omega
    · exact hpos
  obtain ⟨q, hunit, -⟩ := exists_isUnit hnum h.1
  obtain ⟨hbound, hfull⟩ := hunit.inUnits_bounds
  have hsame := hunit.max_eq (h.wholeUnits_quotient hd) he
  obtain ⟨k, hk⟩ := Int.le.dest he
  have hfirst := shiftToTargetExponent_eq (targetExponent_eq (n / d) e) (k := k) (by omega)
    (accuracyOfFraction (n % d) d)
  rw [ofMantissaAndAccuracy_quotient hd, shiftRight_quotientMantissa hd] at hfirst
  rw [hunit.nearestBits_eq]
  rw [hsame, ← hk] at hbound hfull ⊢
  unfold roundWithAccuracy
  simp only [hfirst, roundedMantissa_quotientMantissa (Nat.mul_pos hd (Nat.two_pow_pos k)),
    ← h.inUnits_quotient hd]
  exact toNat_pack_rounded hbound (by omega) hfull

/-- The same for a mantissa, which is the quotient by one. -/
theorem toNat_pack_roundWithAccuracy (h : Measures num den m e) (hm : 0 < m)
    (he : e ≤ max ((m.log2 : Int) + e - 52) (-1074)) :
    (pack Format.binary64 (roundWithAccuracy Format.binary64 .positive m e .exact)).toNat =
      nearestBits num den := by
  have hone : Measures (num * 1) den m e := (Nat.mul_one num).symm ▸ h
  have hquotient := toNat_pack_quotient hone hm Nat.one_pos (by rw [Nat.div_one]; exact he)
  rw [Nat.div_one, Nat.mod_one] at hquotient
  exact hquotient

theorem log2_mul_two_pow (hm : 0 < m) (k : Nat) : (m * 2 ^ k).log2 = m.log2 + k := by
  have hpos := Nat.mul_pos hm (Nat.two_pow_pos k)
  rw [Nat.log2_eq_iff (Nat.pos_iff_ne_zero.mp hpos), Nat.pow_add, Nat.add_right_comm, Nat.pow_add]
  exact ⟨Nat.mul_le_mul_right _ (Nat.log2_self_le (Nat.pos_iff_ne_zero.mp hm)),
    Nat.mul_lt_mul_of_pos_right Nat.lt_log2_self (Nat.two_pow_pos k)⟩

/-- **The same for any mantissa**, which is lengthened first if it is too short. -/
theorem toNat_pack_round (h : Measures num den m e) (hm : 0 < m) :
    (pack Format.binary64 (Float.Model.UnpackedFloat.round Format.binary64 .positive m e)).toNat =
      nearestBits num den := by
  unfold Float.Model.UnpackedFloat.round decreaseExponent
  dsimp only
  rw [targetExponent_eq, Nat.shiftLeft_eq]
  generalize hk : (e - max ((m.log2 : Int) + e - 52) (-1074)).toNat = k
  refine toNat_pack_roundWithAccuracy (h.finer k) (Nat.mul_pos hm (Nat.two_pow_pos k)) ?_
  rw [log2_mul_two_pow hm]
  omega

/-! ## The mantissa and the exponent of a double -/

theorem toNat_unpackSign (b : BitVec Format.binary64.numBits) :
    (unpackSign b).toNat = b.toNat / 2 ^ 63 % 2 := by
  show (b.extractLsb 63 63).toNat = _
  rw [BitVec.extractLsb_toNat, Nat.shiftRight_eq_div_pow]

theorem finite_congr {m' : Nat} {e' : Int} (hm : 0 < m) (hm' : 0 < m') (he : e = e')
    (h : m = m') :
    Float.Model.UnpackedFloat.finite .positive m e hm = .finite .positive m' e' hm' := by
  subst h he
  rfl

/-- The bits of a finite double without a sign unpack to zero, or to a mantissa and an exponent. -/
theorem unpack_cases {b : BitVec Format.binary64.numBits} (h : b.toNat < 2047 * 2 ^ 52) :
    (b.toNat = 0 ∧ unpack Format.binary64 b = .zero .positive) ∨
      ∃ m e, ∃ hm : 0 < m, unpack Format.binary64 b = .finite .positive m e hm ∧ Canonical m e ∧
        b.toNat = (e + 1074).toNat * 2 ^ 52 + m := by
  have hexponent := toNat_unpackExponent b
  have hmantissa := toNat_unpackMantissa b
  have hsign : unpackSign b = 0#1 := by
    refine BitVec.eq_of_toNat_eq ?_
    rw [toNat_unpackSign]
    show _ = 0
    omega
  have hnormal : (1#1 ++ unpackMantissa b).toNat = 2 ^ 52 + b.toNat % 2 ^ 52 := by
    rw [BitVec.toNat_append, hmantissa, ← Nat.shiftLeft_add_eq_or_of_lt (Nat.mod_lt _ (by decide))]
    rfl
  have hbias : ((Format.binary64.exponentBias : Int) + (52 : Nat)) = 1075 := rfl
  have hfield : b.toNat / 2 ^ 52 % 2 ^ 11 = b.toNat / 2 ^ 52 := by omega
  unfold unpack
  dsimp only
  rw [hsign, hbias]
  split
  next hspecial =>
    -- That is the exponent of what is not finite.
    rw [hspecial, hfield] at hexponent
    have : 2047 = b.toNat / 2 ^ 52 := hexponent
    omega
  next =>
    split
    next hsmall =>
      rw [hsmall, hfield] at hexponent
      have hzero : 0 = b.toNat / 2 ^ 52 := hexponent
      split
      next hfraction =>
        rw [hfraction] at hmantissa
        have : 0 = b.toNat % 2 ^ 52 := hmantissa
        exact Or.inl ⟨by omega, rfl⟩
      next hfraction =>
        -- A subnormal double: its fraction counts the smallest units.
        have hpos : 0 < b.toNat % 2 ^ 52 := by
          rw [← hmantissa]
          exact Nat.pos_of_ne_zero fun h => hfraction (BitVec.eq_of_toNat_eq h)
        refine Or.inr ⟨b.toNat % 2 ^ 52, -1074, hpos, finite_congr _ _ ?_ hmantissa,
          ⟨by omega, by omega, Or.inr rfl⟩, ?_⟩
        · rw [hsmall]
          rfl
        · show b.toNat = 0 * 2 ^ 52 + b.toNat % 2 ^ 52
          omega
    next hlarge =>
      have hpos : 0 < b.toNat / 2 ^ 52 := by
        rw [← hfield, ← hexponent]
        exact Nat.pos_of_ne_zero fun h => hlarge (BitVec.eq_of_toNat_eq h)
      refine Or.inr ⟨2 ^ 52 + b.toNat % 2 ^ 52, (b.toNat / 2 ^ 52 : Nat) - 1075, by omega,
        finite_congr _ _ ?_ hnormal, ⟨by omega, by omega, Or.inl (by omega)⟩, ?_⟩
      · rw [hexponent, hfield]
      · have hcarry : ((b.toNat / 2 ^ 52 : Nat) - 1075 + 1074 : Int).toNat =
            b.toNat / 2 ^ 52 - 1 := by omega
        rw [hcarry]
        omega

/-- A mantissa and an exponent can be told from the bits. -/
theorem Canonical.unique {m' : Nat} {e' : Int} (h : Canonical m e) (h' : Canonical m' e')
    (hbits : (e + 1074).toNat * 2 ^ 52 + m = (e' + 1074).toNat * 2 ^ 52 + m') :
    m = m' ∧ e = e' := by
  obtain ⟨hlt, hle, hfull⟩ := h
  obtain ⟨hlt', hle', hfull'⟩ := h'
  generalize hn : (e + 1074).toNat = n at *
  generalize hn' : (e' + 1074).toNat = n' at *
  have hshort : 2 ^ 52 ≤ m ∨ n = 0 := by omega
  have hshort' : 2 ^ 52 ≤ m' ∨ n' = 0 := by omega
  have hsame : n = n' := by omega
  omega

/-- **A finite double without a sign is zero, or a mantissa in some unit.** -/
theorem unpack_of_parts {x : Float} (h : parts x = .finite false num den) :
    (num = 0 ∧ x.toModel.unpack = .zero .positive) ∨
      ∃ m e, ∃ hm : 0 < m, x.toModel.unpack = .finite .positive m e hm ∧
        Measures num den m e ∧ Canonical m e ∧ e ≤ 971 := by
  obtain ⟨-, m, e, hvalue, hcanonical, he, hbits⟩ := parts_measures h
  rw [if_neg (by decide), Nat.add_zero] at hbits
  have hlt : x.toBits.toBitVec.toNat < 2047 * 2 ^ 52 := by
    show x.toBits.toNat < _
    have := hcanonical.lt
    have := hcanonical.full
    omega
  rcases unpack_cases hlt with ⟨hzero, hunpack⟩ | ⟨m', e', hm', hunpack, hcanonical', hbits'⟩
  · have hbits' : (e + 1074).toNat * 2 ^ 52 + m = 0 := hbits.symm.trans hzero
    obtain rfl : m = 0 := by omega
    have hnum := hvalue.2
    rw [Nat.zero_mul] at hnum
    have hpow := Nat.two_pow_pos (-e).toNat
    exact Or.inl ⟨(Nat.mul_eq_zero.mp hnum).resolve_right (by omega), hunpack⟩
  · obtain ⟨rfl, rfl⟩ := hcanonical.unique hcanonical' (hbits.symm.trans hbits')
    exact Or.inr ⟨m, e, hm', hunpack, hvalue, hcanonical, he⟩

/-! ## Products, quotients and sums -/

theorem toNat_mul (x y : Float) : (x * y).toBits.toNat = (pack Format.binary64
    (mul Format.binary64 x.toModel.unpack y.toModel.unpack)).toNat := rfl

theorem toNat_div (x y : Float) : (x / y).toBits.toNat = (pack Format.binary64
    (div Format.binary64 x.toModel.unpack y.toModel.unpack)).toNat := rfl

theorem toNat_add (x y : Float) : (x + y).toBits.toNat = (pack Format.binary64
    (add Format.binary64 x.toModel.unpack y.toModel.unpack)).toNat := rfl

section

variable {num' den' m' : Nat} {e' : Int}

theorem Measures.mul (h : Measures num den m e) (h' : Measures num' den' m' e') :
    Measures (num * num') (den * den') (m * m') (e + e') := by
  obtain ⟨a, b, he⟩ := exists_exponent e
  obtain ⟨a', b', he'⟩ := exists_exponent e'
  obtain ⟨hden, hvalue⟩ := (measures_iff he).mp h
  obtain ⟨hden', hvalue'⟩ := (measures_iff he').mp h'
  refine (measures_iff (show e + e' = (b + b' : Nat) - (a + a' : Nat) by omega)).mpr
    ⟨Nat.mul_pos hden hden', ?_⟩
  calc num * num' * 2 ^ (a + a') = num * 2 ^ a * (num' * 2 ^ a') := by ring
    _ = m * m' * (den * den' * 2 ^ (b + b')) := by
        rw [hvalue, hvalue']
        ring

theorem Measures.add (h : Measures num den m e) (h' : Measures num' den' m' e) :
    Measures (num * den' + num' * den) (den * den') (m + m') e := by
  obtain ⟨hden, hvalue⟩ := h
  obtain ⟨hden', hvalue'⟩ := h'
  refine ⟨Nat.mul_pos hden hden', ?_⟩
  calc (num * den' + num' * den) * 2 ^ (-e).toNat
      = num * 2 ^ (-e).toNat * den' + num' * 2 ^ (-e).toNat * den := by ring
    _ = (m + m') * (den * den' * 2 ^ e.toNat) := by
        rw [hvalue, hvalue']
        ring

/-- Two mantissas with their exponents have digits to drop when they are multiplied. -/
theorem Canonical.add_le (h : Canonical m e) (h' : Canonical m' e') (hm : 0 < m) (hm' : 0 < m') :
    e + e' ≤ max (((m * m').log2 : Int) + (e + e') - 52) (-1074) := by
  rcases h.full with hlong | rfl
  · have hlog : 52 ≤ (m * m').log2 :=
      (Nat.le_log2 (by positivity)).mpr (Nat.le_trans hlong (Nat.le_mul_of_pos_right m hm'))
    omega
  · rcases h'.full with hlong | rfl
    · have hlog : 52 ≤ (m * m').log2 :=
        (Nat.le_log2 (by positivity)).mpr (Nat.le_trans hlong (Nat.le_mul_of_pos_left m' hm))
      omega
    · omega

variable {x y : Float}

/-- **The product of two doubles without a sign is the double nearest to the exact product.** -/
theorem toBits_mul (hx : parts x = .finite false num den) (hy : parts y = .finite false num' den') :
    (x * y).toBits.toNat = nearestBits (num * num') (den * den') := by
  rw [toNat_mul]
  rcases unpack_of_parts hx with ⟨rfl, hux⟩ | ⟨m, e, hm, hux, hvalue, hcanonical, -⟩
  · rw [Nat.zero_mul, hux]
    rcases unpack_of_parts hy with ⟨-, huy⟩ | ⟨m', e', hm', huy, -⟩ <;> rw [huy] <;> rfl
  · rcases unpack_of_parts hy with ⟨rfl, huy⟩ | ⟨m', e', hm', huy, hvalue', hcanonical', -⟩
    · rw [Nat.mul_zero, hux, huy]
      rfl
    · rw [hux, huy]
      exact toNat_pack_roundWithAccuracy (hvalue.mul hvalue') (Nat.mul_pos hm hm')
        (hcanonical.add_le hcanonical' hm hm')

/-- The whole part of a quotient is about as long as its parts say. -/
theorem le_log2_div (a : Nat) {b : Nat} (hb : 0 < b) :
    (a.log2 : Int) - b.log2 - 1 ≤ (a / b).log2 := by
  rcases Nat.lt_or_ge b.log2 a.log2 with hlonger | hshort
  · obtain ⟨k, hk⟩ := Nat.le.dest (show b.log2 + 1 ≤ a.log2 by omega)
    have ha : a ≠ 0 := by
      rintro rfl
      exact absurd hlonger (Nat.not_lt_zero _)
    have hwhole : 2 ^ k ≤ a / b := by
      rw [Nat.le_div_iff_mul_le hb]
      calc 2 ^ k * b ≤ 2 ^ k * 2 ^ (b.log2 + 1) :=
            Nat.mul_le_mul_left _ (Nat.le_of_lt Nat.lt_log2_self)
        _ = 2 ^ a.log2 := by rw [← Nat.pow_add, Nat.add_comm, hk]
        _ ≤ a := Nat.log2_self_le ha
    have hpos : a / b ≠ 0 := by
      have := Nat.two_pow_pos k
      omega
    have := (Nat.le_log2 hpos).mpr hwhole
    omega
  · omega

theorem Measures.div {k : Nat} {q : Int} (h : Measures num den m e)
    (h' : Measures num' den' m' e') (hnum' : 0 < num') (hq : q + k = e - e') :
    Measures (num * den' * m') (den * num') (m * 2 ^ k) q := by
  obtain ⟨a, b, he⟩ := exists_exponent e
  obtain ⟨a', b', he'⟩ := exists_exponent e'
  obtain ⟨hden, hvalue⟩ := (measures_iff he).mp h
  obtain ⟨-, hvalue'⟩ := (measures_iff he').mp h'
  refine (measures_iff (show q = (b + a' : Nat) - (a + b' + k : Nat) by omega)).mpr
    ⟨Nat.mul_pos hden hnum', ?_⟩
  calc num * den' * m' * 2 ^ (a + b' + k)
      = num * 2 ^ a * (m' * (den' * 2 ^ b')) * 2 ^ k := by ring
    _ = m * 2 ^ k * (den * num' * 2 ^ (b + a')) := by
        rw [hvalue, ← hvalue']
        ring

/-- **The quotient of two doubles without a sign is the double nearest to the exact quotient.** -/
theorem toBits_div (hx : parts x = .finite false num den) (hy : parts y = .finite false num' den')
    (hnum' : 0 < num') : (x / y).toBits.toNat = nearestBits (num * den') (den * num') := by
  rw [toNat_div]
  rcases unpack_of_parts hy with ⟨hzero, -⟩ | ⟨m', e', hm', huy, hvalue', -⟩
  · exact absurd hzero (Nat.pos_iff_ne_zero.mp hnum')
  · rcases unpack_of_parts hx with ⟨rfl, hux⟩ | ⟨m, e, hm, hux, hvalue, -⟩
    · rw [Nat.zero_mul, hux, huy]
      rfl
    · rw [hux, huy]
      -- The exponent is lowered until the whole part has enough digits.
      generalize hq : min (e - e')
        (max ((m.log2 + 1 + e) - (m'.log2 + 1 + e') - 53) (-1074)) = q
      generalize hk : (e - e' - q).toNat = k
      have hdiv : div Format.binary64 (.finite .positive m e hm) (.finite .positive m' e' hm') =
          roundWithAccuracy Format.binary64 .positive (m * 2 ^ k / m') q
            (accuracyOfFraction (m * 2 ^ k % m') m') := by
        rw [← Nat.shiftLeft_eq, ← hk, ← hq]
        rfl
      rw [hdiv]
      refine toNat_pack_quotient (hvalue.div hvalue' hnum' (by omega))
        (Nat.mul_pos hm (Nat.two_pow_pos k)) hm' ?_
      have hlog := le_log2_div (m * 2 ^ k) hm'
      rw [log2_mul_two_pow hm] at hlog
      omega

theorem toNat_pack_unpack (hx : parts x = .finite false num den) :
    (pack Format.binary64 x.toModel.unpack).toNat = nearestBits num den := by
  rcases unpack_of_parts hx with ⟨rfl, hux⟩ | ⟨m, e, hm, hux, hvalue, hcanonical, he⟩
  · rw [hux]
    rfl
  · have hlt := hcanonical.lt
    rw [hux, toNat_pack hcanonical, hcanonical.nearestBits_eq he hvalue, bitsOf]
    omega

/-- Two mantissas in units of their own are added in the smaller unit. -/
theorem add_finite (hm : 0 < m) (hm' : 0 < m') :
    add Format.binary64 (.finite .positive m e hm) (.finite .positive m' e' hm') =
      Float.Model.UnpackedFloat.round Format.binary64 .positive
        (m * 2 ^ (e - min e e').toNat + m' * 2 ^ (e' - min e e').toNat) (min e e') := by
  have hpos : 0 < m * 2 ^ (e - min e e').toNat := Nat.mul_pos hm (Nat.two_pow_pos _)
  show normalize Format.binary64
    (((m <<< (e - min e e').toNat : Nat) : Int) + ((m' <<< (e' - min e e').toNat : Nat) : Int))
    (min e e') .positive = _
  rw [Nat.shiftLeft_eq, Nat.shiftLeft_eq, ← Int.natCast_add]
  have hsum := Nat.add_pos_left hpos (m' * 2 ^ (e' - min e e').toNat)
  generalize m * 2 ^ (e - min e e').toNat + m' * 2 ^ (e' - min e e').toNat = sum at *
  unfold Float.Model.UnpackedFloat.normalize
  rw [show compare (sum : Int) 0 = .gt from Int.compare_eq_gt.mpr (by omega)]
  rfl

/-- **The sum of two doubles without a sign is the double nearest to the exact sum.** -/
theorem toBits_add (hx : parts x = .finite false num den) (hy : parts y = .finite false num' den') :
    (x + y).toBits.toNat = nearestBits (num * den' + num' * den) (den * den') := by
  rw [toNat_add]
  rcases unpack_of_parts hx with ⟨rfl, hux⟩ | ⟨m, e, hm, hux, hvalue, -⟩
  · have hzero : add Format.binary64 (.zero .positive) y.toModel.unpack = y.toModel.unpack := by
      rcases unpack_of_parts hy with ⟨-, huy⟩ | ⟨m', e', hm', huy, -⟩ <;> rw [huy] <;> rfl
    obtain ⟨⟨k, rfl⟩, -⟩ := parts_finite hx
    obtain ⟨⟨k', rfl⟩, -⟩ := parts_finite hy
    rw [hux, hzero, toNat_pack_unpack hy, Nat.zero_mul, Nat.zero_add, Nat.mul_comm num',
      nearestBits_scale (Nat.two_pow_pos k) (Nat.two_pow_pos k')]
  · rcases unpack_of_parts hy with ⟨rfl, huy⟩ | ⟨m', e', hm', huy, hvalue', -⟩
    · have hzero : add Format.binary64 x.toModel.unpack (.zero .positive) = x.toModel.unpack := by
        rw [hux]
        rfl
      obtain ⟨⟨k, rfl⟩, -⟩ := parts_finite hx
      obtain ⟨⟨k', rfl⟩, -⟩ := parts_finite hy
      rw [huy, hzero, toNat_pack_unpack hx, Nat.zero_mul, Nat.add_zero, Nat.mul_comm num,
        Nat.mul_comm (2 ^ k), nearestBits_scale (Nat.two_pow_pos k') (Nat.two_pow_pos k)]
    · have hfiner := hvalue.finer (e - min e e').toNat
      have hfiner' := hvalue'.finer (e' - min e e').toNat
      rw [show e - (e - min e e').toNat = min e e' by omega] at hfiner
      rw [show e' - (e' - min e e').toNat = min e e' by omega] at hfiner'
      rw [hux, huy, add_finite hm hm']
      exact toNat_pack_round (hfiner.add hfiner')
        (Nat.add_pos_left (Nat.mul_pos hm (Nat.two_pow_pos _)) _)

end

end Mooring.Decimal
