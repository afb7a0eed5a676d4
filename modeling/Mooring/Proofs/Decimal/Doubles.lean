import Mathlib
import Mooring.Decimal.Binary64

/-!
# Doubles and their bits

A double is its bits.  Among the many bit patterns that are no number only one is a double, so there
is a single such double (`parts_nan`), and one infinity of each sign (`parts_infinite`).

The order of doubles is not total, but what is at most as large is not larger (`not_lt_of_le`), and
being smaller is a way of being at most as large (`le_of_lt`).
-/

namespace Mooring.Decimal

open Float.Model (Format)
open Float.Model.UnpackedFloat

theorem ofNat_toBits (x : Float) : Float.ofBits (UInt64.ofNat x.toBits.toNat) = x := by
  rw [UInt64.ofNat_toNat, Float.ofBits_toBits]

/-! ## What is no number, and what is infinite -/

theorem toNat_unpackExponent (b : BitVec Format.binary64.numBits) :
    (unpackExponent b).toNat = b.toNat / 2 ^ 52 % 2 ^ 11 := by
  rw [unpackExponent_def, BitVec.extractLsb'_toNat, Nat.shiftRight_eq_div_pow]

theorem toNat_unpackMantissa (b : BitVec Format.binary64.numBits) :
    (unpackMantissa b).toNat = b.toNat % 2 ^ 52 := by
  rw [unpackMantissa_def, BitVec.extractLsb'_toNat, Nat.shiftRight_zero]

/-- **There is one double that is no number.** -/
theorem parts_nan {x : Float} (h : parts x = .nan) : x = Float.ofBits 0x7ff8000000000000 := by
  obtain ⟨⟨bits, valid⟩⟩ := x
  have hbits : bits.toBitVec.toNat = bits.toNat := rfl
  have hcanonical : bits.toBitVec = packedNaN Format.binary64 := by
    unfold parts at h
    dsimp only at h
    split at h
    next hfield =>
      split at h
      next => exact Parts.noConfusion h
      next hfraction =>
        refine valid.eq_packedNaN (BitVec.eq_of_toNat_eq ?_) fun hzero => hfraction ?_
        · rw [toNat_unpackExponent, hbits]
          exact hfield
        · have hmantissa := congrArg BitVec.toNat hzero
          rw [toNat_unpackMantissa, hbits] at hmantissa
          exact hmantissa
    next =>
      split at h
      · exact Parts.noConfusion h
      · split at h
        · exact Parts.noConfusion h
        · exact Parts.noConfusion h
  rw [← Float.ofBits_toBits (Float.ofModel ⟨bits, valid⟩)]
  exact congrArg Float.ofBits (UInt64.toBitVec_inj.mp (hcanonical.trans rfl))

/-- The bits of an infinity: the largest exponent, no fraction, and the sign. -/
theorem parts_infinite {x : Float} {negative : Bool} (h : parts x = .infinite negative) :
    x.toBits.toNat = 2047 * 2 ^ 52 + if negative then 2 ^ 63 else 0 := by
  have hlt : x.toBits.toNat < 2 ^ 64 := x.toBits.toNat_lt
  unfold parts at h
  dsimp only at h
  split at h
  next hfield =>
    split at h
    next hfraction =>
      rw [← Parts.infinite.inj h]
      by_cases hsign : 2 ^ 63 ≤ x.toBits.toNat
      · rw [if_pos (decide_eq_true hsign)]
        omega
      · rw [if_neg (by simpa using hsign)]
        omega
    next => exact Parts.noConfusion h
  next =>
    split at h
    · exact Parts.noConfusion h
    · split at h
      · exact Parts.noConfusion h
      · exact Parts.noConfusion h

/-! ## The order of doubles -/

theorem swap_compare_finite (m₁ m₂ : Nat) (e₁ e₂ : Int) :
    ((compare e₂ e₁).then (compare m₂ m₁)).swap = (compare e₁ e₂).then (compare m₁ m₂) := by
  rw [Ordering.swap_then, ← Std.OrientedOrd.eq_swap, ← Std.OrientedOrd.eq_swap]

/-- Comparing two doubles the other way round gives the opposite answer, if any. -/
theorem swap_compare (a b : Float.Model.UnpackedFloat) :
    (b.compare a).map Ordering.swap = a.compare b := by
  rcases a with (_ | _) | _ | (_ | _) | ⟨(_ | _), m, e, hm⟩ <;>
    rcases b with (_ | _) | _ | (_ | _) | ⟨(_ | _), n, f, hn⟩ <;>
    first
      | rfl
      | exact congrArg some (swap_compare_finite m n e f)
      | exact congrArg some (congrArg Ordering.swap (swap_compare_finite m n e f))

theorem lt_iff_compare {x y : Float} :
    x < y ↔ x.toModel.unpack.compare y.toModel.unpack = some .lt := by
  show x.lt y = true ↔ _
  unfold Float.lt
  rw [decide_eq_true_iff]
  show (x.toModel.unpack.compare y.toModel.unpack == some .lt) = true ↔ _
  exact beq_iff_eq

theorem le_iff_compare {x y : Float} :
    x ≤ y ↔ (x.toModel.unpack.compare y.toModel.unpack).any Ordering.isLE = true := by
  show x.le y = true ↔ _
  unfold Float.le
  rw [decide_eq_true_iff]
  exact Iff.rfl

/-- **A smaller double is at most as large.** -/
theorem le_of_lt {x y : Float} (h : x < y) : x ≤ y := by
  rw [le_iff_compare, lt_iff_compare.mp h]
  rfl

/-- **What is at most as large is not larger.** -/
theorem not_lt_of_le {x y : Float} (h : x ≤ y) : ¬y < x := by
  intro hback
  have hswap := swap_compare x.toModel.unpack y.toModel.unpack
  rw [lt_iff_compare.mp hback] at hswap
  rw [le_iff_compare, ← hswap] at h
  exact absurd h (by decide)

end Mooring.Decimal
