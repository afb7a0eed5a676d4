import Mooring.Proofs.Decimal.Exact
import Mooring.Proofs.Decimal.Positive

/-!
# Where the doubles end

A fraction rounds to infinity just if it is at least half a unit above the largest double
(`nearestBits_eq_top_iff`).  At exactly half a unit the even neighbour is the one beyond, which is
infinity.

The bits of the nearest double are those that rounding gives, with the sign in front, also where
they are the bits of infinity (`toBits_nearest_signed`).  So the nearest double is finite just below
that place, under either sign (`parts_nearest`).
-/

namespace Mooring.Decimal

open Float.Model (Format)
open Float.Model.UnpackedFloat

variable {num den : Nat} {x : Float} {negative : Bool}

/-! ## The last place that rounds down -/

/-- Half a unit above the largest double: from here on whole numbers round to infinity. -/
def overflow : Nat :=
  (2 ^ 54 - 1) * 2 ^ 970

theorem nearestBits_overflow : nearestBits overflow 1 = topBits := by
  decide +kernel

theorem lt_overflow (h : num < 2 ^ 54 - 1) : num < overflow := by
  have hmul (a k : Nat) : a ≤ a * 2 ^ k := Nat.le_mul_of_pos_right a (Nat.two_pow_pos k)
  refine Nat.lt_of_lt_of_le h ?_
  unfold overflow
  apply hmul

theorem mul_two_pow_mul (n k den : Nat) : n * 2 ^ k * den = n * (den * 2 ^ k) := by
  rw [Nat.mul_assoc, Nat.mul_comm den]

theorem overflow_mul (den : Nat) : overflow * den = (2 ^ 54 - 1) * (den * 2 ^ 970) := by
  unfold overflow
  apply mul_two_pow_mul

theorem mul_two_pow_succ (n k : Nat) : n * 2 ^ (k + 1) = 2 * (n * 2 ^ k) := by
  rw [Nat.pow_succ, ← Nat.mul_assoc, Nat.mul_comm]

/-- Below half a unit above the largest double nothing rounds to infinity. -/
theorem nearestBits_lt_top (hden : 0 < den) (h : num < overflow * den) :
    nearestBits num den < topBits := by
  -- Everything is measured in halves of the largest unit.
  rw [overflow_mul] at h
  have hone := mul_two_pow_succ den 970
  have htwo := mul_two_pow_succ den 971
  rw [show 970 + 1 = 971 from rfl] at hone
  rw [show 971 + 1 = 972 from rfl] at htwo
  have hpos : 0 < den * 2 ^ 970 := Nat.mul_pos hden (Nat.two_pow_pos 970)
  rcases Nat.eq_zero_or_pos num with rfl | hnum
  · show 0 < topBits
    decide
  · obtain ⟨q, hunit, -⟩ := exists_isUnit hnum hden
    obtain ⟨hmantissa, -⟩ := hunit.inUnits_bounds
    have hq : q ≤ 971 := by
      by_contra hlarge
      have hwhole := (le_wholeUnits_iff hden).mp hunit.1
      rw [show (-q).toNat = 0 by omega, Nat.pow_zero, Nat.mul_one] at hwhole
      have hmono (k : Nat) (hk : k ≤ q.toNat) : den * 2 ^ k ≤ den * 2 ^ q.toNat :=
        Nat.mul_le_mul_left _ (Nat.pow_le_pow_right (by decide) hk)
      have hfour := hmono 972 (by omega)
      generalize den * 2 ^ q.toNat = unit at *
      generalize den * 2 ^ 972 = four at *
      generalize den * 2 ^ 971 = two at *
      generalize den * 2 ^ 970 = one at *
      omega
    rw [hunit.nearestBits_eq]
    unfold bitsOf topBits
    rcases Int.lt_or_eq_of_le (show max q (-1074) ≤ 971 by omega) with hlt | heq
    · clear hone htwo hpos h
      omega
    · have hbelow : inUnits num den 971 < 2 ^ 53 := by
        rw [inUnits_eq, show (-971 : Int).toNat = 0 from rfl, show (971 : Int).toNat = 971 from rfl,
          Nat.pow_zero, Nat.mul_one]
        obtain ⟨-, hround⟩ := roundDiv_bounds num (Nat.mul_pos hden (Nat.two_pow_pos 971))
        rw [hone] at hround ⊢
        generalize den * 2 ^ 970 = one at *
        by_contra hlarge
        have hmul := Nat.mul_le_mul_right (2 * one) (Nat.le_of_not_lt hlarge)
        rw [Nat.mul_assoc] at hround
        generalize roundDiv num (2 * one) * (2 * one) = rounded at *
        omega
      rw [heq] at hmantissa ⊢
      clear hone htwo hpos h
      omega

/-- **A fraction rounds to infinity just if it is half a unit or more above the largest double.** -/
theorem nearestBits_eq_top_iff (hden : 0 < den) :
    nearestBits num den = topBits ↔ overflow * den ≤ num := by
  constructor
  · intro htop
    by_contra hbelow
    have hlt := nearestBits_lt_top hden (Nat.lt_of_not_le hbelow)
    exact absurd htop (Nat.ne_of_lt hlt)
  · intro h
    refine Nat.le_antisymm (nearestBits_le_top num den) ?_
    rw [← nearestBits_overflow]
    refine nearestBits_mono Nat.one_pos hden ?_
    rw [Nat.mul_one]
    exact h

/-! ## The nearest double, sign and all -/

/-- Bits below infinity, and those of infinity itself, are bits of a double, under either sign. -/
theorem toBits_ofBits_signed {n : Nat} (h : n ≤ topBits) :
    (Float.ofBits (UInt64.ofNat (n + if negative then 2 ^ 63 else 0))).toBits.toNat =
      n + if negative then 2 ^ 63 else 0 := by
  unfold topBits at h
  have hsign : (if negative = true then 2 ^ 63 else 0) = 0 ∨
      (if negative = true then 2 ^ 63 else 0) = 2 ^ 63 := by
    cases negative
    · exact Or.inl rfl
    · exact Or.inr rfl
  generalize (if negative = true then 2 ^ 63 else 0) = signBits at *
  have hbits : (UInt64.ofNat (n + signBits)).toBitVec.toNat = n + signBits :=
    Nat.mod_eq_of_lt (by omega)
  have hvalid : Format.binary64.Valid (UInt64.ofNat (n + signBits)).toBitVec := by
    refine ⟨fun hexponent hmantissa => absurd (BitVec.eq_of_toNat_eq ?_) hmantissa⟩
    have hfield := congrArg BitVec.toNat hexponent
    rw [toNat_unpackExponent, hbits] at hfield
    rw [toNat_unpackMantissa, hbits]
    have : (n + signBits) / 2 ^ 52 % 2 ^ 11 = 2047 := hfield
    show (n + signBits) % 2 ^ 52 = 0
    omega
  exact (congrArg BitVec.toNat (pack_unpack_of_valid hvalid)).trans hbits

theorem toBits_nearest_signed (negative : Bool) (num den : Nat) :
    (nearest negative num den).toBits.toNat =
      nearestBits num den + if negative then 2 ^ 63 else 0 :=
  toBits_ofBits_signed (nearestBits_le_top num den)

/-- The nearest double is finite, unless rounding goes to infinity. -/
theorem parts_nearest (negative : Bool) (num den : Nat) :
    (nearestBits num den < topBits ∧
      ∃ num' den', parts (nearest negative num den) = .finite negative num' den') ∨
    (nearestBits num den = topBits ∧ parts (nearest negative num den) = .infinite negative) := by
  have htop := nearestBits_le_top num den
  have hbits := toBits_nearest_signed negative num den
  generalize nearest negative num den = x at *
  generalize nearestBits num den = n at *
  have hsign : decide (2 ^ 63 ≤ x.toBits.toNat) = negative := by
    unfold topBits at htop
    cases negative with
    | false =>
      rw [if_neg Bool.false_ne_true] at hbits
      exact decide_eq_false (by omega)
    | true =>
      rw [if_pos rfl] at hbits
      exact decide_eq_true (by omega)
  have hmod : x.toBits.toNat % 2 ^ 63 = n := by
    unfold topBits at htop
    cases negative with
    | false =>
      rw [if_neg Bool.false_ne_true] at hbits
      omega
    | true =>
      rw [if_pos rfl] at hbits
      omega
  unfold parts
  dsimp only
  rw [hsign]
  rcases Nat.lt_or_eq_of_le htop with hlt | rfl
  · have hfield : ¬x.toBits.toNat / 2 ^ 52 % 2 ^ 11 = 2047 := by
      unfold topBits at hlt
      omega
    refine Or.inl ⟨hlt, ?_⟩
    rw [if_neg hfield]
    split
    · exact ⟨_, _, rfl⟩
    · split
      · exact ⟨_, _, rfl⟩
      · exact ⟨_, _, rfl⟩
  · unfold topBits at hmod
    refine Or.inr ⟨rfl, ?_⟩
    rw [if_pos (by omega), if_pos (by omega)]

end Mooring.Decimal
