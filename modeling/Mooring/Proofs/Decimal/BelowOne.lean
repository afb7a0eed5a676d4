import Mooring.Proofs.Decimal.Places

/-!
# Shares that are not rounded up to one

The share that a part has in a whole is below one unless the part is all of it, but six places may
be too few to show that.  For wholes below 400000 they are enough, also when the share makes up only
a fifth of a blend and the rest of it is full (`round_ratio_ne_one`, `round_blend_ne_one`).

Rounding, sums and products of doubles are monotone, so this is decided by the largest such share.
-/

namespace Mooring.Decimal

variable {x x' y : Float} {k n : Nat}

theorem toBits_mul_mono {num den : Nat} (hle : x.toBits.toNat ≤ x'.toBits.toNat)
    (hx' : IsShare x') (hy : parts y = .finite false num den) :
    (x * y).toBits.toNat ≤ (x' * y).toBits.toNat := by
  obtain ⟨a, b, hx⟩ := parts_of_lt (Nat.lt_of_le_of_lt hle hx'.lt)
  obtain ⟨a', b', hpx', -⟩ := hx'.exists_parts
  have hvalue := value_le_of_toBits_le hx hpx' hle
  obtain ⟨⟨i, rfl⟩, -⟩ := parts_finite hx
  obtain ⟨⟨i', rfl⟩, -⟩ := parts_finite hpx'
  obtain ⟨⟨j, rfl⟩, -⟩ := parts_finite hy
  rw [toBits_mul hx hy, toBits_mul hpx' hy]
  refine nearestBits_mono (Nat.mul_pos (Nat.two_pow_pos i) (Nat.two_pow_pos j))
    (Nat.mul_pos (Nat.two_pow_pos i') (Nat.two_pow_pos j)) ?_
  calc a * num * (2 ^ i' * 2 ^ j) = a * 2 ^ i' * (num * 2 ^ j) := by ring
    _ ≤ a' * 2 ^ i * (num * 2 ^ j) := Nat.mul_le_mul_right _ hvalue
    _ = a' * num * (2 ^ i * 2 ^ j) := by ring

/-- **Rounding a share is monotone.** -/
theorem IsShare.toBits_round_mono (hx' : IsShare x') (hle : x.toBits.toNat ≤ x'.toBits.toNat)
    (places : Nat) :
    (Scalar.round places x).toBits.toNat ≤ (Scalar.round places x').toBits.toNat := by
  have hx : IsShare x := Nat.le_trans hle hx'
  obtain ⟨a, b, hpx, hab⟩ := hx.exists_parts
  obtain ⟨a', b', hpx', hab'⟩ := hx'.exists_parts
  have hvalue := value_le_of_toBits_le hpx hpx' hle
  obtain ⟨⟨i, rfl⟩, -⟩ := parts_finite hpx
  obtain ⟨⟨i', rfl⟩, -⟩ := parts_finite hpx'
  rw [round_of_parts hpx, round_of_parts hpx',
    toBits_nearest_of_le (roundToPlaces_le_pow hab places),
    toBits_nearest_of_le (roundToPlaces_le_pow hab' places)]
  have hpow : 0 < 10 ^ places := Nat.pow_pos (by decide)
  refine nearestBits_mono hpow hpow (Nat.mul_le_mul_right _ ?_)
  refine roundDiv_mono (Nat.two_pow_pos i) (Nat.two_pow_pos i') ?_
  calc a * 10 ^ places * 2 ^ i' = a * 2 ^ i' * 10 ^ places := by ring
    _ ≤ a' * 2 ^ i * 10 ^ places := Nat.mul_le_mul_right _ hvalue
    _ = a' * 10 ^ places * 2 ^ i := by ring

/-- The share of all of a whole is one. -/
theorem ratio_self (hwhole : 0 < n) : (Scalar.ratio n n : Float) = Scalar.one := by
  have hn : (Scalar.ratio n n : Float).toBits.toNat = nearestBits n n :=
    toBits_nearest_of_le (Nat.le_refl n)
  have hone : (Scalar.one : Float).toBits.toNat = nearestBits 100 100 :=
    toBits_nearest_of_le (by decide)
  refine eq_of_toBits ?_
  rw [hn, hone]
  exact Nat.le_antisymm (nearestBits_mono hwhole (by decide) (by omega))
    (nearestBits_mono (by decide) hwhole (by omega))

/-- The largest share of a proper part in a whole below 400000. -/
theorem toBits_ratio_le (hpart : k < n) (hwhole : n < 400000) :
    (Scalar.ratio k n : Float).toBits.toNat ≤
      (Scalar.ratio 399998 399999 : Float).toBits.toNat := by
  have hk : (Scalar.ratio k n : Float).toBits.toNat = nearestBits k n :=
    toBits_nearest_of_le (Nat.le_of_lt hpart)
  have hmost : (Scalar.ratio 399998 399999 : Float).toBits.toNat = nearestBits 399998 399999 :=
    toBits_nearest_of_le (by decide)
  rw [hk, hmost]
  exact nearestBits_mono (Nat.zero_lt_of_lt hpart) (by decide) (by omega)

/-- **The share of a proper part is not rounded to one**, with a whole below 400000. -/
theorem round_ratio_ne_one (hpart : k < n) (hwhole : n < 400000) :
    Scalar.round 6 (Scalar.ratio k n : Float) ≠ 1 := by
  intro hone
  have hmono := (isShare_ratio (by decide)).toBits_round_mono (toBits_ratio_le hpart hwhole) 6
  rw [hone] at hmono
  exact absurd hmono (by decide +kernel)

/-- **A blend with the share of a proper part is not rounded to one**, with a whole below 400000. -/
theorem round_blend_ne_one (hpart : k < n) (hwhole : n < 400000) (hy : IsShare y) :
    Scalar.round 6 (Scalar.ratio k n * Scalar.hundredths 20 + y * Scalar.hundredths 80) ≠ 1 := by
  intro hone
  have hfifth : IsShare (Scalar.hundredths 20) := isShare_ratio (by decide)
  have hfourFifths : IsShare (Scalar.hundredths 80) := isShare_ratio (by decide)
  have hmost : IsShare (Scalar.ratio 399998 399999) := isShare_ratio (by decide)
  obtain ⟨_, _, hpfifth, -⟩ := hfifth.exists_parts
  obtain ⟨_, _, hpfourFifths, -⟩ := hfourFifths.exists_parts
  obtain ⟨_, _, hpy, hyle⟩ := hy.exists_parts
  obtain ⟨_, _, hpmost, hmostle⟩ := hmost.exists_parts
  have hproduct := toBits_mul_mono (toBits_ratio_le hpart hwhole) hmost hpfifth
  have hsum := toBits_add_le hproduct (toBits_mul_le hpy hpfourFifths hyle)
    (Nat.lt_of_le_of_lt (toBits_mul_le hpmost hpfifth hmostle) hfifth.lt) hfourFifths.lt
  have hshare : IsShare (Scalar.ratio 399998 399999 * Scalar.hundredths 20 +
      Scalar.hundredths 80) := by
    unfold IsShare
    decide +kernel
  have hmono := hshare.toBits_round_mono hsum 6
  rw [hone] at hmono
  exact absurd hmono (by decide +kernel)

end Mooring.Decimal
