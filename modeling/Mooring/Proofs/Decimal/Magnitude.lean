import Mooring.Decimal.Reading
import Mooring.Proofs.Decimal.Numerals
import Mooring.Proofs.Decimal.Shares

/-!
# Doubles that are not below zero

Weights are doubles that are not below zero, and zero may come with a sign.  They are looked at
through their bits, but for the sign of a zero (`magnitude`).  What is below zero, or no number at
all, has a larger magnitude than infinity, so being at most as large as infinity is being a number
that is not below zero.

On these doubles magnitudes go with the values.  They grow when something is added
(`le_magnitude_add`) and more so when more is added (`magnitude_add_mono`), a share of a double is
not larger than the double (`magnitude_mul_le`), and a part is at most once its whole
(`magnitude_div_le`), also when the whole has become infinite.
-/

namespace Mooring.Decimal

open Float.Model (Format)
open Float.Model.UnpackedFloat

variable {num den : Nat} {x y x' y' : Float}

/-- Zero with a sign. -/
def negativeZero : Float :=
  nearest true 0 1

/-- The bits of a double, but for the sign of a zero. -/
def magnitude (x : Float) : Nat :=
  if x.toBits.toNat = 2 ^ 63 then 0 else x.toBits.toNat

/-- The magnitude of infinity. -/
def topBits : Nat :=
  2047 * 2 ^ 52

/-- Nothing rounds beyond infinity. -/
theorem nearestBits_le_top (num den : Nat) : nearestBits num den ≤ topBits := by
  unfold nearestBits topBits
  dsimp only
  split
  · exact Nat.zero_le _
  · split
    · exact Nat.le_refl _
    · exact Nat.min_le_right _ _

/-! ## The three forms -/

theorem toBits_negativeZero : negativeZero.toBits.toNat = 2 ^ 63 := by
  decide

theorem unpack_negativeZero : negativeZero.toModel.unpack = .zero .negative := by
  rfl

theorem infinity_eq : infinity false = Float.ofBits 0x7ff0000000000000 :=
  nearest_infinite (by decide)

theorem toBits_infinity : (infinity false).toBits.toNat = topBits := by
  rw [infinity_eq]
  rfl

theorem unpack_infinity : (infinity false).toModel.unpack = .infinity .positive := by
  rw [infinity_eq]
  rfl

theorem magnitude_of_le (h : x.toBits.toNat ≤ topBits) : magnitude x = x.toBits.toNat := by
  unfold topBits at h
  exact if_neg (by omega)

theorem magnitude_negativeZero : magnitude negativeZero = 0 :=
  if_pos toBits_negativeZero

theorem magnitude_infinity : magnitude (infinity false) = topBits :=
  (magnitude_of_le (Nat.le_of_eq toBits_infinity)).trans toBits_infinity

theorem toBits_lt_of_parts (h : parts x = .finite false num den) : x.toBits.toNat < topBits := by
  obtain ⟨-, m, e, -, hcanonical, he, hbits⟩ := parts_measures h
  rw [if_neg (by decide), Nat.add_zero] at hbits
  have := hcanonical.lt
  unfold topBits
  omega

theorem magnitude_of_parts (h : parts x = .finite false num den) :
    magnitude x = nearestBits num den := by
  rw [← toBits_of_parts h]
  exact magnitude_of_le (Nat.le_of_lt (toBits_lt_of_parts h))

/-- What is not below zero is zero with a sign, infinite, or finite without a sign. -/
theorem magnitude_cases (h : magnitude x ≤ topBits) :
    x = negativeZero ∨ x = infinity false ∨ ∃ num den, parts x = .finite false num den := by
  unfold magnitude at h
  split at h
  next hzero => exact Or.inl (eq_of_toBits (hzero.trans toBits_negativeZero.symm))
  next =>
    rcases Nat.lt_or_eq_of_le h with hlt | htop
    · exact Or.inr (Or.inr (parts_of_lt hlt))
    · exact Or.inr (Or.inl (eq_of_toBits (htop.trans toBits_infinity.symm)))

/-! ## Sums -/

theorem add_comm_unpacked (a b : Float.Model.UnpackedFloat) :
    add Format.binary64 a b = add Format.binary64 b a := by
  rcases a with (_ | _) | _ | (_ | _) | ⟨s, m, e, hm⟩ <;>
    rcases b with (_ | _) | _ | (_ | _) | ⟨s', m', e', hm'⟩ <;>
    first
      | rfl
      | -- Both are finite: the smaller unit and the sum of the mantissas do not depend on the order.
        unfold add
        dsimp only
        rw [min_comm e' e, Int.add_comm]

/-- A sum does not depend on the order of its parts. -/
theorem add_comm_double (x y : Float) : x + y = y + x := by
  refine eq_of_toBits ?_
  rw [toNat_add, toNat_add, add_comm_unpacked]

theorem add_infinity (hx : magnitude x ≤ topBits) : x + infinity false = infinity false := by
  refine eq_of_toBits (Eq.trans ?_ toBits_infinity.symm)
  rw [toNat_add, unpack_infinity]
  rcases magnitude_cases hx with rfl | rfl | ⟨num, den, hparts⟩
  · rw [unpack_negativeZero]
    rfl
  · rw [unpack_infinity]
    rfl
  · rcases unpack_of_parts hparts with ⟨-, hu⟩ | ⟨_, _, _, hu, -⟩ <;> rw [hu] <;> rfl

theorem add_negativeZero (hx : parts x = .finite false num den) : x + negativeZero = x := by
  refine eq_of_toBits ?_
  rw [toBits_of_parts hx, ← toNat_pack_unpack hx]
  rw [toNat_add, unpack_negativeZero]
  rcases unpack_of_parts hx with ⟨-, hu⟩ | ⟨_, _, _, hu, -⟩ <;> rw [hu] <;> rfl

/-- A sum is not below zero, and at least as large as its first part. -/
theorem le_magnitude_add_left (hx : magnitude x ≤ topBits) (hy : magnitude y ≤ topBits) :
    magnitude (x + y) ≤ topBits ∧ magnitude x ≤ magnitude (x + y) := by
  rcases magnitude_cases hx with rfl | rfl | ⟨num, den, hpx⟩
  · rw [magnitude_negativeZero]
    refine ⟨?_, Nat.zero_le _⟩
    rcases magnitude_cases hy with rfl | rfl | ⟨num', den', hpy⟩
    · decide
    · rw [add_infinity hx]
      exact hy
    · rw [add_comm_double, add_negativeZero hpy]
      exact hy
  · rw [add_comm_double, add_infinity hy]
    exact ⟨hx, Nat.le_refl _⟩
  · rcases magnitude_cases hy with rfl | rfl | ⟨num', den', hpy⟩
    · rw [add_negativeZero hpx]
      exact ⟨hx, Nat.le_refl _⟩
    · rw [add_infinity hx, magnitude_infinity]
      exact ⟨Nat.le_refl _, hx⟩
    · obtain ⟨⟨k, rfl⟩, -⟩ := parts_finite hpx
      obtain ⟨⟨k', rfl⟩, -⟩ := parts_finite hpy
      have hden : 0 < 2 ^ k := Nat.two_pow_pos k
      have hsum := toBits_add hpx hpy
      have hbound := nearestBits_le_top (num * 2 ^ k' + num' * 2 ^ k) (2 ^ k * 2 ^ k')
      rw [magnitude_of_le (hsum ▸ hbound), hsum, magnitude_of_parts hpx]
      refine ⟨hbound, nearestBits_mono hden (Nat.mul_pos hden (Nat.two_pow_pos k')) ?_⟩
      calc num * (2 ^ k * 2 ^ k') = num * 2 ^ k' * 2 ^ k := by ring
        _ ≤ (num * 2 ^ k' + num' * 2 ^ k) * 2 ^ k :=
          Nat.mul_le_mul_right _ (Nat.le_add_right _ _)

/-- **A sum is not below zero, and at least as large as each of its parts.** -/
theorem le_magnitude_add (hx : magnitude x ≤ topBits) (hy : magnitude y ≤ topBits) :
    magnitude (x + y) ≤ topBits ∧ magnitude x ≤ magnitude (x + y) ∧
      magnitude y ≤ magnitude (x + y) := by
  obtain ⟨htop, hleft⟩ := le_magnitude_add_left hx hy
  obtain ⟨-, hright⟩ := le_magnitude_add_left hy hx
  rw [add_comm_double] at hright
  exact ⟨htop, hleft, hright⟩

/-- **A larger sum comes from larger parts**, as long as these are finite. -/
theorem magnitude_add_mono (hx : magnitude x ≤ x'.toBits.toNat) (hy : magnitude y ≤ y'.toBits.toNat)
    (hx' : x'.toBits.toNat < topBits) (hy' : y'.toBits.toNat < topBits) :
    magnitude (x + y) ≤ magnitude (x' + y') := by
  have hfinite {z z' : Float} (h : magnitude z ≤ z'.toBits.toNat) (h' : z'.toBits.toNat < topBits) :
      z = negativeZero ∨ z.toBits.toNat ≤ z'.toBits.toNat ∧
        ∃ num den, parts z = .finite false num den := by
    have hlt : magnitude z < topBits := Nat.lt_of_le_of_lt h h'
    rcases magnitude_cases (Nat.le_of_lt hlt) with hzero | rfl | ⟨num, den, hparts⟩
    · exact Or.inl hzero
    · rw [magnitude_infinity] at hlt
      exact absurd hlt (Nat.lt_irrefl _)
    · rw [magnitude_of_parts hparts, ← toBits_of_parts hparts] at h
      exact Or.inr ⟨h, num, den, hparts⟩
  have hmx' := magnitude_of_le (Nat.le_of_lt hx')
  have hmy' := magnitude_of_le (Nat.le_of_lt hy')
  obtain ⟨-, hleft, hright⟩ := le_magnitude_add (hmx' ▸ Nat.le_of_lt hx') (hmy' ▸ Nat.le_of_lt hy')
  rcases hfinite hx hx' with rfl | ⟨hxle, num, den, hpx⟩
  · rcases hfinite hy hy' with rfl | ⟨hyle, num', den', hpy⟩
    · have hnone : magnitude (negativeZero + negativeZero) = 0 := by decide
      rw [hnone]
      exact Nat.zero_le _
    · rw [add_comm_double, add_negativeZero hpy]
      exact Nat.le_trans hy (hmy' ▸ hright)
  · rcases hfinite hy hy' with rfl | ⟨hyle, num', den', hpy⟩
    · rw [add_negativeZero hpx]
      exact Nat.le_trans hx (hmx' ▸ hleft)
    · have hsum := toBits_add_le hxle hyle hx' hy'
      obtain ⟨a, b, hpx'⟩ := parts_of_lt hx'
      obtain ⟨a', b', hpy'⟩ := parts_of_lt hy'
      have htop : (x' + y').toBits.toNat ≤ topBits := by
        rw [toBits_add hpx' hpy']
        exact nearestBits_le_top _ _
      rw [magnitude_of_le htop, magnitude_of_le (Nat.le_trans hsum htop)]
      exact hsum

/-! ## Products and quotients -/

theorem mul_negativeZero (hx : parts x = .finite false num den) :
    x * negativeZero = negativeZero := by
  refine eq_of_toBits (Eq.trans ?_ toBits_negativeZero.symm)
  rw [toNat_mul, unpack_negativeZero]
  rcases unpack_of_parts hx with ⟨-, hu⟩ | ⟨_, _, _, hu, -⟩ <;> rw [hu] <;> rfl

/-- **A share of a double is not larger than the double.** -/
theorem magnitude_mul_le (hx : IsShare x) (hy : magnitude y < topBits) :
    magnitude (x * y) ≤ magnitude y := by
  obtain ⟨num, den, hpx, hle⟩ := hx.exists_parts
  rcases magnitude_cases (Nat.le_of_lt hy) with rfl | rfl | ⟨num', den', hpy⟩
  · rw [mul_negativeZero hpx]
  · rw [magnitude_infinity] at hy
    exact absurd hy (Nat.lt_irrefl _)
  · have hproduct := toBits_mul_le hpx hpy hle
    have htop : y.toBits.toNat ≤ topBits := by
      rw [toBits_of_parts hpy]
      exact nearestBits_le_top _ _
    rw [magnitude_of_le htop, magnitude_of_le (Nat.le_trans hproduct htop)]
    exact hproduct

/-- A zero with a sign is no part of anything. -/
theorem magnitude_negativeZero_div (hy : magnitude y ≤ topBits) (hpos : 0 < magnitude y) :
    magnitude (negativeZero / y) = 0 := by
  refine if_pos ?_
  rw [toNat_div, unpack_negativeZero]
  rcases magnitude_cases hy with rfl | rfl | ⟨num, den, hpy⟩
  · rw [magnitude_negativeZero] at hpos
    exact absurd hpos (Nat.lt_irrefl _)
  · rw [unpack_infinity]
    rfl
  · rcases unpack_of_parts hpy with ⟨rfl, -⟩ | ⟨_, _, _, hu, -⟩
    · rw [magnitude_of_parts hpy] at hpos
      exact absurd hpos (Nat.lt_irrefl _)
    · rw [hu]
      rfl

/-- What is finite is no part of infinity. -/
theorem magnitude_div_infinity (hx : parts x = .finite false num den) :
    magnitude (x / infinity false) = 0 := by
  have hzero : (x / infinity false).toBits.toNat = 0 := by
    rw [toNat_div, unpack_infinity]
    rcases unpack_of_parts hx with ⟨-, hu⟩ | ⟨_, _, _, hu, -⟩ <;> rw [hu] <;> rfl
  rw [magnitude_of_le (hzero ▸ Nat.zero_le _), hzero]

/-- **A part is at most once its whole.** -/
theorem magnitude_div_le (hx : magnitude x < topBits) (hy : magnitude y ≤ topBits)
    (hle : magnitude x ≤ magnitude y) (hpos : 0 < magnitude y) :
    magnitude (x / y) ≤ (1 : Float).toBits.toNat := by
  rcases magnitude_cases (Nat.le_of_lt hx) with rfl | rfl | ⟨num, den, hpx⟩
  · rw [magnitude_negativeZero_div hy hpos]
    exact Nat.zero_le _
  · rw [magnitude_infinity] at hx
    exact absurd hx (Nat.lt_irrefl _)
  · rcases magnitude_cases hy with rfl | rfl | ⟨num', den', hpy⟩
    · rw [magnitude_negativeZero] at hpos
      exact absurd hpos (Nat.lt_irrefl _)
    · rw [magnitude_div_infinity hpx]
      exact Nat.zero_le _
    · have hnum' : 0 < num' := by
        rcases Nat.eq_zero_or_pos num' with rfl | h
        · rw [magnitude_of_parts hpy] at hpos
          exact absurd hpos (Nat.lt_irrefl _)
        · exact h
      have hvalue : num * den' ≤ num' * den := value_le_of_toBits_le hpx hpy (by
        rw [toBits_of_parts hpx, toBits_of_parts hpy, ← magnitude_of_parts hpx,
          ← magnitude_of_parts hpy]
        exact hle)
      have hquotient : (x / y).toBits.toNat ≤ (1 : Float).toBits.toNat := by
        obtain ⟨⟨k, rfl⟩, -⟩ := parts_finite hpx
        rw [toBits_div hpx hpy hnum', ← nearestBits_one]
        refine nearestBits_mono (Nat.mul_pos (Nat.two_pow_pos k) hnum') Nat.one_pos ?_
        rw [Nat.mul_one, Nat.one_mul, Nat.mul_comm (2 ^ k)]
        exact hvalue
      rw [magnitude_of_le (Nat.le_trans hquotient (by decide))]
      exact hquotient

/-! ## Whole bounds -/

section

variable {n k : Nat} (hy : parts y = .finite false (n * k) k) (h : magnitude x ≤ y.toBits.toNat)

include hy h

/-- What is at most a whole number is zero with a sign, or worth a fraction of at most that. -/
theorem cases_of_le_whole :
    x = negativeZero ∨ ∃ num den, parts x = .finite false num den ∧ num ≤ n * den := by
  have hlt : magnitude x < topBits := Nat.lt_of_le_of_lt h (toBits_lt_of_parts hy)
  rcases magnitude_cases (Nat.le_of_lt hlt) with hzero | rfl | ⟨num, den, hparts⟩
  · exact Or.inl hzero
  · rw [magnitude_infinity] at hlt
    exact absurd hlt (Nat.lt_irrefl _)
  · rw [magnitude_of_parts hparts, ← toBits_of_parts hparts] at h
    have hvalue := value_le_of_toBits_le hparts hy h
    obtain ⟨⟨e, rfl⟩, -⟩ := parts_finite hy
    rw [Nat.mul_right_comm] at hvalue
    exact Or.inr ⟨num, den, hparts, Nat.le_of_mul_le_mul_right hvalue (Nat.two_pow_pos e)⟩

/-- **Rounding to decimal places does not go beyond a whole number.** -/
theorem magnitude_round_le (places : Nat) :
    magnitude (Scalar.round places x) ≤ y.toBits.toNat := by
  rcases cases_of_le_whole hy h with rfl | ⟨num, den, hparts, hle⟩
  · have hround : Scalar.round places negativeZero = negativeZero := by
      obtain ⟨e, hzero⟩ : ∃ e, Scalar.parts negativeZero = .finite true 0 (2 ^ e) :=
        ⟨1074, rfl⟩
      have hnone := roundToPlaces_le (n := 0) (Nat.two_pow_pos e) (Nat.zero_le _) places
      rw [Nat.zero_mul] at hnone
      rw [Scalar.round, hzero]
      dsimp only
      rw [Nat.le_zero.mp hnone]
      rfl
    rw [hround, magnitude_negativeZero]
    exact Nat.zero_le _
  · obtain ⟨⟨e, rfl⟩, -⟩ := parts_finite hparts
    obtain ⟨⟨e', rfl⟩, -⟩ := parts_finite hy
    have hround : Scalar.round places x =
        nearest false (roundToPlaces places num (2 ^ e)) (10 ^ places) := by
      have hvalue : Scalar.parts x = .finite false num (2 ^ e) := hparts
      rw [Scalar.round, hvalue]
      rfl
    have hbits : nearestBits (roundToPlaces places num (2 ^ e)) (10 ^ places) ≤ y.toBits.toNat := by
      rw [toBits_of_parts hy]
      refine nearestBits_mono (Nat.pow_pos (by decide)) (Nat.two_pow_pos e') ?_
      calc roundToPlaces places num (2 ^ e) * 2 ^ e' ≤ n * 10 ^ places * 2 ^ e' :=
            Nat.mul_le_mul_right _ (roundToPlaces_le (Nat.two_pow_pos e) hle places)
        _ = n * 2 ^ e' * 10 ^ places := Nat.mul_right_comm _ _ _
    have htop := Nat.lt_of_le_of_lt hbits (toBits_lt_of_parts hy)
    have hnearest := toBits_nearest htop
    rw [hround, magnitude_of_le (hnearest ▸ Nat.le_of_lt htop), hnearest]
    exact hbits

end

end Mooring.Decimal
