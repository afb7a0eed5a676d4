import Mooring.Proofs.Decimal.Range

/-!
# Whole numbers as doubles

Points are whole numbers, and a bound on them may be any double: negative, infinite, no number at
all.  Larger points do not fall below a bound that smaller ones reach (`ratio_lt_of_le`), because
what exceeds a double without a sign is above zero (`pos_of_lt`), and doubles above zero are ordered
as their bits are.
-/

namespace Mooring.Decimal

open Float.Model (Format)
open Float.Model.UnpackedFloat

variable {m n : Nat} {x y : Float}

/-- A double without a sign is zero, or finite and above zero, or infinite. -/
theorem unpack_of_le_top (h : y.toBits.toNat ≤ topBits) :
    y.toModel.unpack = .zero .positive ∨ (∃ m e hm, y.toModel.unpack = .finite .positive m e hm) ∨
      y.toModel.unpack = .infinity .positive := by
  rcases Nat.lt_or_eq_of_le h with hlt | heq
  · obtain ⟨num, den, hparts⟩ := parts_of_lt hlt
    rcases unpack_of_parts hparts with ⟨-, hzero⟩ | ⟨m, e, hm, hfinite, -⟩
    · exact Or.inl hzero
    · exact Or.inr (Or.inl ⟨m, e, hm, hfinite⟩)
  · rw [eq_of_toBits (heq.trans toBits_infinity.symm)]
    exact Or.inr (Or.inr unpack_infinity)

/-- **What exceeds a double without a sign is above zero.** -/
theorem pos_of_lt (hy : y.toBits.toNat ≤ topBits) (h : y < x) : 0 < x := by
  rw [lt_iff_compare] at h ⊢
  show Float.Model.UnpackedFloat.compare (.zero .positive) x.toModel.unpack = some .lt
  generalize x.toModel.unpack = u at *
  -- Of the seven kinds of doubles only two exceed one without a sign, and those exceed zero.
  rcases unpack_of_le_top hy with hunpack | ⟨m, e, hm, hunpack⟩ | hunpack <;> rw [hunpack] at h <;>
    rcases u with (_ | _) | _ | (_ | _) | ⟨(_ | _), k, f, hk⟩ <;>
    first
      | rfl
      | exact absurd (show some Ordering.gt = some .lt from h) (by decide)
      | exact absurd (show some Ordering.eq = some .lt from h) (by decide)
      | exact absurd (show none = some Ordering.lt from h) (by decide)

theorem toBits_lt_of_lt (hy : y.toBits.toNat ≤ topBits) (h : y < x) :
    y.toBits.toNat < x.toBits.toNat := by
  have hx := pos_of_lt hy h
  rcases Nat.eq_zero_or_pos y.toBits.toNat with hzero | hpos
  · rw [hzero]
    exact (pos_iff.mp hx).1
  · exact (lt_iff_of_pos (pos_iff.mpr ⟨hpos, hy⟩) hx).mp h

theorem toBits_ratio_one (n : Nat) :
    (Scalar.ratio n 1 : Float).toBits.toNat = nearestBits n 1 :=
  toBits_nearest_signed false n 1

/-- **A whole number below a bound has all smaller ones below it.** -/
theorem ratio_lt_of_le (hle : n ≤ m) (h : (Scalar.ratio m 1 : Float) < x) :
    (Scalar.ratio n 1 : Float) < x := by
  have htop : (Scalar.ratio m 1 : Float).toBits.toNat ≤ topBits := by
    rw [toBits_ratio_one]
    exact nearestBits_le_top m 1
  have hbits : (Scalar.ratio n 1 : Float).toBits.toNat ≤ (Scalar.ratio m 1 : Float).toBits.toNat := by
    rw [toBits_ratio_one, toBits_ratio_one]
    exact nearestBits_mono Nat.one_pos Nat.one_pos (Nat.mul_le_mul_right 1 hle)
  exact lt_of_lt_pos (pos_of_lt htop h) (Nat.lt_of_le_of_lt hbits (toBits_lt_of_lt htop h))

/-- No whole number is below zero. -/
theorem not_ratio_lt_zero (n : Nat) : ¬(Scalar.ratio n 1 : Float) < 0 := by
  intro h
  refine not_lt_self 0 (pos_of_lt ?_ h)
  rw [toBits_ratio_one]
  exact nearestBits_le_top n 1

end Mooring.Decimal
