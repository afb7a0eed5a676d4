import Mooring.Decimal.Shortest
import Mooring.Proofs.Decimal.Digits
import Mooring.Proofs.Decimal.Nearest

/-!
# Numerals and the doubles they stand for

A numeral stands for the double nearest to its value: the shortcuts for numerals far outside the
range change nothing (`Numeral.toFloat_eq`).  So two numerals of the same sign and value stand for
the same double, however many zeros one of them has (`Numeral.toFloat_congr`).

The shortest numeral of a finite double reads back as that double (`shortest?_toFloat`).  Each
numeral that is tried was read back before it is taken, the exact expansion needs no such test, and
dropping zeros keeps the value (`value_dropZeros`).
-/

namespace Mooring.Decimal

/-! ## The value of a numeral -/

/-- The numerator of `digits` units of ten to the power `exponent`. -/
def scaledNum (digits : Nat) (exponent : Int) : Nat :=
  digits * 10 ^ exponent.toNat

/-- The denominator of units of ten to the power `exponent`. -/
def scaledDen (exponent : Int) : Nat :=
  10 ^ (-exponent).toNat

theorem scaledDen_pos (exponent : Int) : 0 < scaledDen exponent :=
  Nat.pow_pos (by omega)

/-- Two numbers of digits, each in its unit, have the same value. -/
def SameValue (digits : Nat) (exponent : Int) (digits' : Nat) (exponent' : Int) : Prop :=
  scaledNum digits exponent * scaledDen exponent' = scaledNum digits' exponent' * scaledDen exponent

theorem SameValue.symm {d d' : Nat} {e e' : Int} (h : SameValue d e d' e') : SameValue d' e' d e :=
  Eq.symm h

/-- More zeros in a smaller unit. -/
theorem sameValue_zeros (digits : Nat) (exponent : Int) (k : Nat) :
    SameValue (digits * 10 ^ k) exponent digits (exponent + k) := by
  unfold SameValue scaledNum scaledDen
  rw [Nat.mul_assoc, Nat.mul_assoc, Nat.mul_assoc, ← pow_add, ← pow_add, ← pow_add]
  congr 2
  omega

theorem ten_pow_large : 2 ^ 1200 ≤ 10 ^ 400 := by
  rw [show 1200 = 3 * 400 from rfl, pow_mul]
  exact Nat.pow_le_pow_left (by omega) 400

theorem nearestBits_of_size_large {digits : Nat} {exponent : Int} (h : digits ≠ 0)
    (hsize : 400 < (digitCount digits : Int) + exponent) :
    nearestBits (scaledNum digits exponent) (scaledDen exponent) = 2047 * 2 ^ 52 := by
  apply nearestBits_of_large (scaledDen_pos exponent)
  have hpos := digitCount_pos h
  calc scaledDen exponent * 2 ^ 1024
      ≤ scaledDen exponent * 10 ^ 400 :=
        Nat.mul_le_mul_left _ (Nat.le_trans (Nat.pow_le_pow_right (by omega) (by omega))
          ten_pow_large)
    _ = 10 ^ ((-exponent).toNat + 400) := (pow_add 10 _ 400).symm
    _ ≤ 10 ^ (digitCount digits - 1 + exponent.toNat) :=
        Nat.pow_le_pow_right (by omega) (by omega)
    _ = 10 ^ (digitCount digits - 1) * 10 ^ exponent.toNat := pow_add 10 _ _
    _ ≤ scaledNum digits exponent := Nat.mul_le_mul_right _ (digitCount_bounds h).1

theorem nearestBits_of_size_small {digits : Nat} {exponent : Int} (h : digits ≠ 0)
    (hsize : (digitCount digits : Int) + exponent < -400) :
    nearestBits (scaledNum digits exponent) (scaledDen exponent) = 0 := by
  apply nearestBits_of_small (scaledDen_pos exponent)
  calc scaledNum digits exponent * 2 ^ 1076
      ≤ scaledNum digits exponent * 10 ^ 400 :=
        Nat.mul_le_mul_left _ (Nat.le_trans (Nat.pow_le_pow_right (by omega) (by omega))
          ten_pow_large)
    _ ≤ 10 ^ digitCount digits * 10 ^ exponent.toNat * 10 ^ 400 :=
        Nat.mul_le_mul_right _ (Nat.mul_le_mul_right _ (Nat.le_of_lt (digitCount_bounds h).2))
    _ = 10 ^ (digitCount digits + exponent.toNat + 400) := by rw [pow_add, pow_add]
    _ ≤ scaledDen exponent := Nat.pow_le_pow_right (by omega) (by omega)

theorem nearestBits_infinite : nearestBits (2 ^ 1025) 1 = 2047 * 2 ^ 52 := by
  apply nearestBits_of_large Nat.one_pos
  rw [Nat.one_mul]
  exact Nat.pow_le_pow_right (by omega) (by omega)

/-- An infinity is what lies beyond all doubles. -/
theorem nearest_infinite {x : Float} {negative : Bool} (h : parts x = .infinite negative) :
    nearest negative (2 ^ 1025) 1 = x := by
  unfold nearest
  rw [nearestBits_infinite, ← parts_infinite h, ofNat_toBits]

/-- **A numeral stands for the double nearest to its value.** -/
theorem Numeral.toFloat_eq (n : Numeral) :
    n.toFloat = nearest n.negative (scaledNum n.digits n.exponent) (scaledDen n.exponent) := by
  have hzero : ∀ den, nearestBits 0 den = 0 := fun den => rfl
  unfold Numeral.toFloat
  dsimp only
  split
  next h => simp only [nearest, scaledNum, h, Nat.zero_mul, hzero]
  next h =>
    split
    -- The shortcuts for numerals far beyond the range agree with the rounding.
    next hsize => simp only [nearest, nearestBits_infinite, nearestBits_of_size_large h hsize]
    next =>
      split
      next hsize => simp only [nearest, hzero, nearestBits_of_size_small h hsize]
      next =>
        split
        next he =>
          unfold scaledNum scaledDen
          rw [show (-n.exponent).toNat = 0 by omega, pow_zero]
        next he =>
          unfold scaledNum scaledDen
          rw [show n.exponent.toNat = 0 by omega, pow_zero, Nat.mul_one]

/-- **Numerals of the same sign and value stand for the same double.** -/
theorem Numeral.toFloat_congr {n n' : Numeral} (hsign : n.negative = n'.negative)
    (hvalue : SameValue n.digits n.exponent n'.digits n'.exponent) : n.toFloat = n'.toFloat := by
  rw [toFloat_eq, toFloat_eq, nearest, nearest, hsign,
    nearestBits_congr (scaledDen_pos _) (scaledDen_pos _) hvalue]

/-! ## The shortest numeral reads back -/

theorem readsBack_iff {bits digits : Nat} {exponent : Int} :
    readsBack bits digits exponent = true ↔
      nearestBits (scaledNum digits exponent) (scaledDen exponent) = bits := by
  unfold readsBack
  dsimp only
  rw [beq_iff_eq]
  split
  next he => rw [scaledNum, scaledDen, show (-exponent).toNat = 0 by omega, pow_zero]
  next he => rw [scaledNum, scaledDen, show exponent.toNat = 0 by omega, pow_zero, Nat.mul_one]

theorem readsBack_neighbour? {bits num den digits : Nat} {exponent exponent' : Int}
    (h : neighbour? bits num den exponent = some (digits, exponent')) :
    readsBack bits digits exponent' = true := by
  have hfirst : ∀ close other : Nat,
      (if readsBack bits close exponent then some (close, exponent)
        else if readsBack bits other exponent then some (other, exponent) else none) =
        some (digits, exponent') → readsBack bits digits exponent' = true := by
    intro close other h
    split at h
    next hclose =>
      obtain ⟨rfl, rfl⟩ := Prod.mk.inj (Option.some.inj h)
      exact hclose
    next =>
      split at h
      next hother =>
        obtain ⟨rfl, rfl⟩ := Prod.mk.inj (Option.some.inj h)
        exact hother
      next => exact absurd h (by simp)
  exact hfirst _ _ h

/-- The exact expansion has the value of the fraction. -/
theorem readsBack_expansion (num k : Nat) :
    readsBack (nearestBits num (2 ^ k)) (expansion num (2 ^ k)).1 (expansion num (2 ^ k)).2 =
      true := by
  rw [readsBack_iff]
  unfold expansion scaledNum scaledDen
  dsimp only
  rw [Nat.log2_two_pow, show (-(k : Int)).toNat = 0 by omega, pow_zero, Nat.mul_one, Int.neg_neg,
    Int.toNat_natCast]
  apply nearestBits_congr (Nat.pow_pos (by omega)) (Nat.two_pow_pos k)
  rw [Nat.mul_assoc, ← Nat.mul_pow]

/-- **Dropping zeros keeps the value.** -/
theorem value_dropZeros (digits : Nat) (exponent : Int) :
    SameValue (dropZeros digits exponent).1 (dropZeros digits exponent).2 digits exponent := by
  -- Dropping stops somewhere; what counts is that so many zeros are gone.
  suffices ∃ k : Nat, (dropZeros digits exponent).1 * 10 ^ k = digits ∧
      (dropZeros digits exponent).2 = exponent + k by
    obtain ⟨k, hdigits, hexponent⟩ := this
    have h := sameValue_zeros (dropZeros digits exponent).1 exponent k
    rw [hdigits, ← hexponent] at h
    exact h.symm
  fun_induction dropZeros digits exponent with
  | case1 digits exponent h ih =>
    obtain ⟨k, hdigits, hexponent⟩ := ih
    refine ⟨k + 1, ?_, by rw [hexponent]; push_cast; ring⟩
    rw [pow_succ, ← Nat.mul_assoc, hdigits]
    omega
  | case2 digits exponent h => exact ⟨0, by simp, by simp⟩

theorem readsBack_of_sameValue {bits d d' : Nat} {e e' : Int} (h : SameValue d e d' e') :
    readsBack bits d e = readsBack bits d' e' := by
  rw [Bool.eq_iff_iff, readsBack_iff, readsBack_iff,
    nearestBits_congr (scaledDen_pos _) (scaledDen_pos _) h]

/-- The digits that are found read back as the bits. -/
theorem readsBack_shortestDigits (num k : Nat) :
    readsBack (nearestBits num (2 ^ k)) (shortestDigits (nearestBits num (2 ^ k)) num (2 ^ k)).1
      (shortestDigits (nearestBits num (2 ^ k)) num (2 ^ k)).2 = true := by
  unfold shortestDigits
  dsimp only
  rw [readsBack_of_sameValue (value_dropZeros _ _)]
  generalize hfound : (List.range 17).findSome? _ = found
  -- Either a shorter numeral was tried and read back, or the exact expansion is taken.
  cases found with
  | none => exact readsBack_expansion num k
  | some numeral =>
    obtain ⟨n, -, hn⟩ := List.exists_of_findSome?_eq_some hfound
    exact readsBack_neighbour? hn

/-- **The shortest numeral of a finite double reads back as the double.** -/
theorem shortest?_toFloat {x : Float} {negative : Bool} {num den : Nat}
    (h : parts x = .finite negative num den) :
    ∃ n, shortest? x = some n ∧ n.negative = negative ∧ n.toFloat = x := by
  obtain ⟨⟨k, rfl⟩, -⟩ := parts_finite h
  unfold shortest?
  rw [h]
  dsimp only
  split
  next hzero =>
    refine ⟨_, rfl, rfl, ?_⟩
    rw [← nearest_parts h, hzero]
    rfl
  next hzero =>
    refine ⟨_, rfl, rfl, ?_⟩
    rw [Numeral.toFloat_eq, nearest, readsBack_iff.mp (readsBack_shortestDigits num k)]
    exact nearest_parts h

end Mooring.Decimal
