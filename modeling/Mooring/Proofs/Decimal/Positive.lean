import Mooring.Proofs.Decimal.Magnitude

/-!
# Doubles above zero

A double is above zero just if its bits are neither those of zero nor larger than those of infinity
(`pos_iff`): a sign or no number at all makes the bits larger.  Doubles above zero are ordered as
their bits are (`lt_iff_of_pos`), infinity last, so among them the order is total, which the order
of all doubles is not.
-/

namespace Mooring.Decimal

open Float.Model (Format)
open Float.Model.UnpackedFloat

variable {num den : Nat} {x y : Float}

theorem zero_eq_double : (Scalar.zero : Float) = 0 := by
  decide

theorem parts_zero : parts 0 = .finite false 0 (2 ^ 1074) := by
  rfl

theorem toBits_zero : (0 : Float).toBits.toNat = 0 := by
  rfl

/-- No double is smaller than itself. -/
theorem not_lt_self (x : Float) : ¬x < x :=
  fun h => not_lt_of_le (le_of_lt h) h

/-! ## Above zero -/

/-- What has a sign is not above zero. -/
theorem not_pos_of_sign (hsign : 2 ^ 63 ≤ x.toBits.toNat) : ¬0 < x := by
  have hlt : x.toBits.toNat < 2 ^ 64 := x.toBits.toNat_lt
  have hnegative : @unpackSign Format.binary64 x.toBits.toBitVec = (1#1 : BitVec 1) := by
    refine BitVec.eq_of_toNat_eq ?_
    rw [toNat_unpackSign]
    show x.toBits.toNat / 2 ^ 63 % 2 = 1
    omega
  rw [lt_iff_compare]
  show ¬Float.Model.UnpackedFloat.compare (.zero .positive)
    (unpack Format.binary64 x.toBits.toBitVec) = some .lt
  unfold unpack
  dsimp only
  rw [hnegative]
  split
  · split <;> decide
  · have hmore : ¬some Ordering.gt = some Ordering.lt := by decide
    split
    · split
      · decide
      · exact hmore
    · exact hmore

theorem lt_infinity (hx : parts x = .finite false num den) : x < infinity false := by
  rw [lt_iff_compare, unpack_infinity]
  rcases unpack_of_parts hx with ⟨-, hu⟩ | ⟨_, _, _, hu, -⟩ <;> rw [hu] <;> rfl

/-- Beyond infinity, without a sign, there is only what is no number. -/
theorem parts_of_gt (hbelow : x.toBits.toNat < 2 ^ 63) (habove : topBits < x.toBits.toNat) :
    parts x = .nan := by
  unfold topBits at habove
  have hfield : x.toBits.toNat / 2 ^ 52 % 2 ^ 11 = 2047 := by omega
  have hfraction : ¬x.toBits.toNat % 2 ^ 52 = 0 := by omega
  unfold parts
  dsimp only
  rw [if_pos hfield, if_neg hfraction]

/-- **A double is above zero just if its bits lie between those of zero and those of infinity.** -/
theorem pos_iff : 0 < x ↔ 0 < x.toBits.toNat ∧ x.toBits.toNat ≤ topBits := by
  constructor
  · intro hpos
    have hbelow : x.toBits.toNat < 2 ^ 63 :=
      Nat.lt_of_not_le fun hsign => not_pos_of_sign hsign hpos
    constructor
    · refine Nat.pos_of_ne_zero fun hzero => ?_
      rw [eq_of_toBits (hzero.trans toBits_zero.symm)] at hpos
      exact not_lt_self 0 hpos
    · by_contra habove
      rw [parts_nan (parts_of_gt hbelow (Nat.lt_of_not_le habove))] at hpos
      exact absurd hpos (by decide)
  · rintro ⟨hpos, htop⟩
    rcases Nat.lt_or_eq_of_le htop with hlt | heq
    · obtain ⟨num, den, hx⟩ := parts_of_lt hlt
      exact lt_of_toBits_lt parts_zero hx hpos
    · rw [eq_of_toBits (heq.trans toBits_infinity.symm)]
      exact lt_infinity parts_zero

/-! ## Their order -/

/-- What has smaller bits than a double above zero is smaller. -/
theorem lt_of_lt_pos (hy : 0 < y) (h : x.toBits.toNat < y.toBits.toNat) : x < y := by
  have htop := (pos_iff.mp hy).2
  obtain ⟨num, den, hpx⟩ := parts_of_lt (Nat.lt_of_lt_of_le h htop)
  rcases Nat.lt_or_eq_of_le htop with hlt | heq
  · obtain ⟨num', den', hpy⟩ := parts_of_lt hlt
    exact lt_of_toBits_lt hpx hpy h
  · rw [eq_of_toBits (heq.trans toBits_infinity.symm)]
    exact lt_infinity hpx

/-- **Doubles above zero are ordered as their bits are.** -/
theorem lt_iff_of_pos (hx : 0 < x) (hy : 0 < y) : x < y ↔ x.toBits.toNat < y.toBits.toNat := by
  refine ⟨fun h => ?_, lt_of_lt_pos hy⟩
  by_contra hback
  rcases Nat.lt_or_eq_of_le (Nat.le_of_not_lt hback) with hlt | heq
  · exact not_lt_of_le (le_of_lt (lt_of_lt_pos hx hlt)) h
  · rw [eq_of_toBits heq] at h
    exact not_lt_self x h

/-! ## Finite doubles above zero -/

theorem pos_infinity : 0 < infinity false :=
  lt_infinity parts_zero

/-- A double above zero is not infinite just if its bits are smaller than those of infinity. -/
theorem lt_infinity_iff (hx : 0 < x) : x < infinity false ↔ x.toBits.toNat < topBits := by
  rw [lt_iff_of_pos hx pos_infinity, toBits_infinity]

/-- **A double is finite and above zero just if its value is, without a sign.** -/
theorem pos_lt_infinity_iff :
    0 < x ∧ x < infinity false ↔ ∃ num den, parts x = .finite false num den ∧ 0 < num := by
  constructor
  · rintro ⟨hpos, hlt⟩
    obtain ⟨num, den, hparts⟩ := parts_of_lt ((lt_infinity_iff hpos).mp hlt)
    refine ⟨num, den, hparts, Nat.pos_of_ne_zero ?_⟩
    rintro rfl
    have hbits := (pos_iff.mp hpos).1
    rw [toBits_of_parts hparts] at hbits
    exact absurd hbits (Nat.lt_irrefl _)
  · rintro ⟨num, den, hparts, hnum⟩
    refine ⟨?_, lt_infinity hparts⟩
    have htop : x.toBits.toNat ≤ topBits := Nat.le_of_lt (toBits_lt_of_parts hparts)
    refine pos_iff.mpr ⟨Nat.pos_of_ne_zero fun hzero => ?_, htop⟩
    have hvalue := value_le_of_toBits_le hparts parts_zero (hzero.trans_le (Nat.zero_le _))
    have hpow : 0 < num * 2 ^ 1074 := Nat.mul_pos hnum (Nat.two_pow_pos 1074)
    rw [Nat.zero_mul] at hvalue
    exact absurd hvalue (Nat.not_le.mpr hpow)

end Mooring.Decimal
