import Mooring.Decimal.Scalar
import Mooring.Proofs.Decimal.Arithmetic

/-!
# Doubles from zero to one

A share is a double from zero to one, without a sign (`IsShare`, `IsShare.bounds`).  A ratio of a
part to a whole is one, and rounding to decimal places keeps one: both are the nearest double to a
fraction that is at most one, and rounding is monotone.

Two shares are blended with weights of 20 and 80 hundredths.  Neither weight is a double, and the
two doubles that stand for them add up to more than one.  The blend is a share all the same
(`IsShare.blend`): it is at most the rounded sum of the two weights, and that is one.
-/

namespace Mooring.Decimal

open Float.Model.UnpackedFloat

variable {num den num' den' : Nat} {x y x' y' : Float}

/-! ## Bits and values -/

theorem toBits_of_parts (h : parts x = .finite false num den) :
    x.toBits.toNat = nearestBits num den :=
  (parts_finite h).2

theorem eq_of_toBits (h : x.toBits.toNat = y.toBits.toNat) : x = y := by
  rw [← ofNat_toBits x, h, ofNat_toBits]

/-- Bits below those of infinity make a finite double without a sign. -/
theorem parts_of_lt (h : x.toBits.toNat < 2047 * 2 ^ 52) :
    ∃ num den, parts x = .finite false num den := by
  have hsign : decide (2 ^ 63 ≤ x.toBits.toNat) = false := decide_eq_false (by omega)
  have hfield : ¬x.toBits.toNat / 2 ^ 52 % 2 ^ 11 = 2047 := by omega
  unfold parts
  dsimp only
  rw [hsign, if_neg hfield]
  split
  · exact ⟨_, _, rfl⟩
  · split
    · exact ⟨_, _, rfl⟩
    · exact ⟨_, _, rfl⟩

theorem toBits_ofBits {n : Nat} (h : n < 2047 * 2 ^ 52) :
    (Float.ofBits (UInt64.ofNat n)).toBits.toNat = n := by
  have hbits : (UInt64.ofNat n).toBitVec.toNat = n := Nat.mod_eq_of_lt (by omega)
  have hpack : (Float.ofBits (UInt64.ofNat n)).toBits.toNat =
      (pack .binary64 (unpack .binary64 (UInt64.ofNat n).toBitVec)).toNat := rfl
  rw [hpack]
  rcases unpack_cases (by rw [hbits]; exact h) with
    ⟨hzero, hunpack⟩ | ⟨m, e, hm, hunpack, hcanonical, hvalue⟩
  · rw [hunpack, ← hbits, hzero]
    rfl
  · rw [hbits] at hvalue
    rw [hunpack, toNat_pack hcanonical, bitsOf, ← hvalue]
    omega

theorem toBits_nearest (h : nearestBits num den < 2047 * 2 ^ 52) :
    (nearest false num den).toBits.toNat = nearestBits num den :=
  toBits_ofBits h

/-- The values compare as the bits do. -/
theorem value_le_of_toBits_le (hx : parts x = .finite false num den)
    (hy : parts y = .finite false num' den') (h : x.toBits.toNat ≤ y.toBits.toNat) :
    num * den' ≤ num' * den := by
  obtain ⟨⟨k, rfl⟩, hbits⟩ := parts_finite hx
  obtain ⟨⟨k', rfl⟩, hbits'⟩ := parts_finite hy
  by_contra hlt
  -- Then the bits are the same, so the doubles are, and so their values.
  have hback := nearestBits_mono (Nat.two_pow_pos k') (Nat.two_pow_pos k)
    (Nat.le_of_lt (Nat.lt_of_not_le hlt))
  obtain rfl : x = y := eq_of_toBits (by
    rw [toBits_of_parts hx, toBits_of_parts hy] at h ⊢
    exact Nat.le_antisymm h hback)
  obtain ⟨-, rfl, hden⟩ := Parts.finite.inj (hx.symm.trans hy)
  rw [hden] at hlt
  exact hlt (Nat.le_refl _)

theorem Canonical.compare_isLE {m m' : Nat} {e e' : Int} (h : Canonical m e) (h' : Canonical m' e')
    (hbits : (e + 1074).toNat * 2 ^ 52 + m ≤ (e' + 1074).toNat * 2 ^ 52 + m') :
    ((compare e e').then (compare m m')).isLE = true := by
  obtain ⟨hlt, hle, hfull⟩ := h
  obtain ⟨hlt', hle', hfull'⟩ := h'
  have hexponent : e ≤ e' := by omega
  rcases Int.lt_or_eq_of_le hexponent with hless | rfl
  · rw [Int.compare_eq_lt.mpr hless]
    rfl
  · rw [Int.compare_eq_eq.mpr rfl]
    exact Nat.isLE_compare.mpr (Nat.le_of_add_le_add_left hbits)

/-- **Doubles without a sign compare as their bits do.** -/
theorem le_of_toBits_le (hx : parts x = .finite false num den)
    (hy : parts y = .finite false num' den') (h : x.toBits.toNat ≤ y.toBits.toNat) : x ≤ y := by
  rw [le_iff_compare]
  rw [toBits_of_parts hx, toBits_of_parts hy] at h
  rcases unpack_of_parts hx with ⟨rfl, hux⟩ | ⟨m, e, hm, hux, hvalue, hcanonical, he⟩
  · rcases unpack_of_parts hy with ⟨-, huy⟩ | ⟨m', e', hm', huy, -⟩ <;> rw [hux, huy] <;> rfl
  · rw [hcanonical.nearestBits_eq he hvalue] at h
    rcases unpack_of_parts hy with ⟨rfl, huy⟩ | ⟨m', e', hm', huy, hvalue', hcanonical', he'⟩
    · have hnone : nearestBits 0 den' = 0 := rfl
      omega
    · rw [hcanonical'.nearestBits_eq he' hvalue'] at h
      rw [hux, huy]
      exact hcanonical.compare_isLE hcanonical' h

theorem Canonical.compare_lt {m m' : Nat} {e e' : Int} (h : Canonical m e) (h' : Canonical m' e')
    (hbits : (e + 1074).toNat * 2 ^ 52 + m < (e' + 1074).toNat * 2 ^ 52 + m') :
    (compare e e').then (compare m m') = .lt := by
  obtain ⟨hlt, hle, hfull⟩ := h
  obtain ⟨hlt', hle', hfull'⟩ := h'
  have hexponent : e ≤ e' := by omega
  rcases Int.lt_or_eq_of_le hexponent with hless | rfl
  · rw [Int.compare_eq_lt.mpr hless]
    rfl
  · rw [Int.compare_eq_eq.mpr rfl]
    exact Nat.compare_eq_lt.mpr (Nat.lt_of_add_lt_add_left hbits)

/-- **Of two doubles without a sign the one with the smaller bits is smaller.** -/
theorem lt_of_toBits_lt (hx : parts x = .finite false num den)
    (hy : parts y = .finite false num' den') (h : x.toBits.toNat < y.toBits.toNat) : x < y := by
  rw [lt_iff_compare]
  rw [toBits_of_parts hx, toBits_of_parts hy] at h
  rcases unpack_of_parts hy with ⟨rfl, huy⟩ | ⟨m', e', hm', huy, hvalue', hcanonical', he'⟩
  · exact absurd h (Nat.not_lt_zero _)
  · rw [hcanonical'.nearestBits_eq he' hvalue'] at h
    rcases unpack_of_parts hx with ⟨rfl, hux⟩ | ⟨m, e, hm, hux, hvalue, hcanonical, he⟩
    · rw [hux, huy]
      rfl
    · rw [hcanonical.nearestBits_eq he hvalue] at h
      rw [hux, huy]
      exact congrArg some (hcanonical.compare_lt hcanonical' h)

/-! ## Sums and products are monotone -/

theorem toBits_mul_le (hx : parts x = .finite false num den)
    (hy : parts y = .finite false num' den') (hle : num ≤ den) :
    (x * y).toBits.toNat ≤ y.toBits.toNat := by
  obtain ⟨⟨k, rfl⟩, -⟩ := parts_finite hx
  obtain ⟨⟨k', rfl⟩, -⟩ := parts_finite hy
  rw [toBits_mul hx hy, toBits_of_parts hy]
  refine nearestBits_mono (Nat.mul_pos (Nat.two_pow_pos k) (Nat.two_pow_pos k'))
    (Nat.two_pow_pos k') ?_
  calc num * num' * 2 ^ k' ≤ 2 ^ k * num' * 2 ^ k' :=
        Nat.mul_le_mul_right _ (Nat.mul_le_mul_right _ hle)
    _ = num' * (2 ^ k * 2 ^ k') := by ring

theorem toBits_add_le (hx : x.toBits.toNat ≤ x'.toBits.toNat)
    (hy : y.toBits.toNat ≤ y'.toBits.toNat) (hx' : x'.toBits.toNat < 2047 * 2 ^ 52)
    (hy' : y'.toBits.toNat < 2047 * 2 ^ 52) :
    (x + y).toBits.toNat ≤ (x' + y').toBits.toNat := by
  obtain ⟨a, b, hpx⟩ := parts_of_lt (Nat.lt_of_le_of_lt hx hx')
  obtain ⟨c, d, hpy⟩ := parts_of_lt (Nat.lt_of_le_of_lt hy hy')
  obtain ⟨a', b', hpx'⟩ := parts_of_lt hx'
  obtain ⟨c', d', hpy'⟩ := parts_of_lt hy'
  have hvalue := value_le_of_toBits_le hpx hpx' hx
  have hvalue' := value_le_of_toBits_le hpy hpy' hy
  obtain ⟨⟨k, rfl⟩, -⟩ := parts_finite hpx
  obtain ⟨⟨l, rfl⟩, -⟩ := parts_finite hpy
  obtain ⟨⟨k', rfl⟩, -⟩ := parts_finite hpx'
  obtain ⟨⟨l', rfl⟩, -⟩ := parts_finite hpy'
  rw [toBits_add hpx hpy, toBits_add hpx' hpy']
  refine nearestBits_mono (Nat.mul_pos (Nat.two_pow_pos k) (Nat.two_pow_pos l))
    (Nat.mul_pos (Nat.two_pow_pos k') (Nat.two_pow_pos l')) ?_
  calc (a * 2 ^ l + c * 2 ^ k) * (2 ^ k' * 2 ^ l')
      = a * 2 ^ k' * (2 ^ l * 2 ^ l') + c * 2 ^ l' * (2 ^ k * 2 ^ k') := by ring
    _ ≤ a' * 2 ^ k * (2 ^ l * 2 ^ l') + c' * 2 ^ l * (2 ^ k * 2 ^ k') :=
        Nat.add_le_add (Nat.mul_le_mul_right _ hvalue) (Nat.mul_le_mul_right _ hvalue')
    _ = (a' * 2 ^ l' + c' * 2 ^ k') * (2 ^ k * 2 ^ l) := by ring

/-! ## Shares -/

/-- A double from zero to one, without a sign. -/
def IsShare (x : Float) : Prop :=
  x.toBits.toNat ≤ (1 : Float).toBits.toNat

theorem parts_one : parts 1 = .finite false (2 ^ 52) (2 ^ 52) := by decide

theorem nearestBits_one : nearestBits 1 1 = (1 : Float).toBits.toNat := by decide

namespace IsShare

theorem lt (h : IsShare x) : x.toBits.toNat < 2047 * 2 ^ 52 :=
  Nat.lt_of_le_of_lt h (by decide)

/-- A share is worth a proper fraction, or one. -/
theorem exists_parts (h : IsShare x) : ∃ num den, parts x = .finite false num den ∧ num ≤ den := by
  obtain ⟨num, den, hx⟩ := parts_of_lt h.lt
  have hvalue := value_le_of_toBits_le hx parts_one h
  rw [Nat.mul_comm (2 ^ 52)] at hvalue
  exact ⟨num, den, hx, Nat.le_of_mul_le_mul_right hvalue (Nat.two_pow_pos 52)⟩

/-- **A share lies between zero and one.** -/
theorem bounds (h : IsShare x) : 0 ≤ x ∧ x ≤ 1 := by
  have hzero : parts 0 = .finite false 0 (2 ^ 1074) := by rfl
  obtain ⟨num, den, hx, -⟩ := h.exists_parts
  refine ⟨le_of_toBits_le hzero hx ?_, le_of_toBits_le hx parts_one h⟩
  rw [toBits_of_parts hzero]
  exact Nat.zero_le _

/-- **Shares compare as their bits do.** -/
theorem lt_iff (hx : IsShare x) (hy : IsShare y) : x < y ↔ x.toBits.toNat < y.toBits.toNat := by
  obtain ⟨_, _, hpx, -⟩ := hx.exists_parts
  obtain ⟨_, _, hpy, -⟩ := hy.exists_parts
  refine ⟨fun h => ?_, lt_of_toBits_lt hpx hpy⟩
  by_contra hback
  exact not_lt_of_le (le_of_toBits_le hpy hpx (Nat.le_of_not_lt hback)) h

theorem le_iff (hx : IsShare x) (hy : IsShare y) : x ≤ y ↔ x.toBits.toNat ≤ y.toBits.toNat := by
  obtain ⟨_, _, hpx, -⟩ := hx.exists_parts
  obtain ⟨_, _, hpy, -⟩ := hy.exists_parts
  refine ⟨fun h => ?_, le_of_toBits_le hpx hpy⟩
  by_contra hback
  exact not_lt_of_le h ((hy.lt_iff hx).mpr (Nat.lt_of_not_le hback))

theorem le_refl (h : IsShare x) : x ≤ x :=
  (h.le_iff h).mpr (Nat.le_refl _)

theorem le_trans {z : Float} (hx : IsShare x) (hy : IsShare y) (hz : IsShare z) (hxy : x ≤ y)
    (hyz : y ≤ z) : x ≤ z :=
  (hx.le_iff hz).mpr (((hx.le_iff hy).mp hxy).trans ((hy.le_iff hz).mp hyz))

end IsShare

theorem nearestBits_le_one (h : num ≤ den) : nearestBits num den ≤ (1 : Float).toBits.toNat := by
  rcases Nat.eq_zero_or_pos num with rfl | hpos
  · exact Nat.zero_le _
  · rw [← nearestBits_one]
    exact nearestBits_mono (by omega) Nat.one_pos (by omega)

theorem toBits_nearest_of_le (h : num ≤ den) :
    (nearest false num den).toBits.toNat = nearestBits num den :=
  toBits_nearest (Nat.lt_of_le_of_lt (nearestBits_le_one h) (by decide))

/-- **What is nearest to a fraction of at most one is a share.** -/
theorem isShare_nearest (h : num ≤ den) : IsShare (nearest false num den) := by
  rw [IsShare, toBits_nearest_of_le h]
  exact nearestBits_le_one h

theorem isShare_ratio (h : num ≤ den) : IsShare (Scalar.ratio num den) :=
  isShare_nearest h

theorem isShare_zero : IsShare Scalar.zero :=
  isShare_ratio (by decide)

theorem isShare_one : IsShare Scalar.one :=
  isShare_ratio (by decide)

/-- Rounding to decimal places does not go beyond a whole number. -/
theorem roundToPlaces_le {n : Nat} (hden : 0 < den) (h : num ≤ n * den) (places : Nat) :
    roundToPlaces places num den ≤ n * 10 ^ places := by
  calc roundToPlaces places num den
      ≤ roundDiv (n * den * 10 ^ places) den := roundDiv_mono_left (Nat.mul_le_mul_right _ h) _
    _ = n * 10 ^ places := by rw [Nat.mul_right_comm, roundDiv_mul hden]

/-- A fraction of at most one is rounded to at most one. -/
theorem roundToPlaces_le_pow (h : num ≤ den) (places : Nat) :
    roundToPlaces places num den ≤ 10 ^ places := by
  rcases Nat.eq_zero_or_pos den with rfl | hpos
  · rw [Nat.le_zero.mp h, roundToPlaces, Nat.zero_mul]
    exact Nat.zero_le _
  · exact (roundToPlaces_le hpos (h.trans_eq (Nat.one_mul den).symm) places).trans_eq
      (Nat.one_mul _)

theorem round_of_parts (hx : parts x = .finite false num den) (places : Nat) :
    Scalar.round places x = nearest false (roundToPlaces places num den) (10 ^ places) := by
  have hparts : Scalar.parts x = .finite false num den := hx
  rw [Scalar.round, hparts]
  rfl

namespace IsShare

/-- **Rounding a share gives a share.** -/
theorem round (h : IsShare x) (places : Nat) : IsShare (Scalar.round places x) := by
  obtain ⟨num, den, hx, hle⟩ := h.exists_parts
  rw [round_of_parts hx]
  exact isShare_nearest (roundToPlaces_le_pow hle places)

/-- **Two shares blended by fifths are a share**: the blend is at most the sum of the weights. -/
theorem blend (hx : IsShare x) (hy : IsShare y) :
    IsShare (x * Scalar.hundredths 20 + y * Scalar.hundredths 80) := by
  have hweights : ((Scalar.hundredths 20 : Float) + Scalar.hundredths 80).toBits.toNat =
      (1 : Float).toBits.toNat := by decide
  have hfifth : IsShare (Scalar.hundredths 20) := isShare_ratio (by decide)
  have hfourFifths : IsShare (Scalar.hundredths 80) := isShare_ratio (by decide)
  obtain ⟨_, _, hx, hxle⟩ := hx.exists_parts
  obtain ⟨_, _, hy, hyle⟩ := hy.exists_parts
  obtain ⟨_, _, hpfifth, -⟩ := hfifth.exists_parts
  obtain ⟨_, _, hpfourFifths, -⟩ := hfourFifths.exists_parts
  rw [IsShare, ← hweights]
  exact toBits_add_le (toBits_mul_le hx hpfifth hxle) (toBits_mul_le hy hpfourFifths hyle)
    hfifth.lt hfourFifths.lt

end IsShare

end Mooring.Decimal
