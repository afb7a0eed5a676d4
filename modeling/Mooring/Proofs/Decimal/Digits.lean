import Mathlib.Data.Nat.Digits.Lemmas
import Mooring.Decimal.Layout
import Mooring.Proofs.Text.Case
import Mooring.Text.Letters

/-!
# Digits and what they spell

The digits that are written for a number spell the number (`digitsValue_digitChars`,
`digitsValue_natText`), start with another digit than zero, and are as many as its size asks for
(`digitCount_bounds`).  Zeros in front of some digits change nothing, and zeros after them multiply
by ten (`digitsValue_zeros_append`, `digitsValue_append_zeros`).

The digit list is the library's `Nat.digits`, the other way round (`digitList_eq`); what the library
knows of the one is carried over to the other.
-/

namespace Mooring.Decimal

open Mooring.Text

/-! ## Characters -/

theorem toNat_digitChar {d : Nat} (h : d < 10) : (digitChar d).toNat = 48 + d := by
  unfold digitChar
  exact toNat_ofNat (Or.inl (by omega))

theorem isAsciiDigit_iff {c : Char} : isAsciiDigit c = true ↔ 48 ≤ c.toNat ∧ c.toNat ≤ 57 := by
  unfold isAsciiDigit
  rw [Bool.and_eq_true, decide_eq_true_iff, decide_eq_true_iff]
  exact Iff.rfl

theorem isAsciiDigit_digitChar {d : Nat} (h : d < 10) : isAsciiDigit (digitChar d) = true := by
  rw [isAsciiDigit_iff, toNat_digitChar h]
  omega

theorem hexValue_digitChar {d : Nat} (h : d < 10) : hexValue (digitChar d) = d := by
  unfold hexValue
  rw [if_pos (isAsciiDigit_digitChar h), toNat_digitChar h]
  exact Nat.add_sub_cancel_left 48 d

theorem digitChar_eq_zero {d : Nat} (h : d < 10) : digitChar d = '0' ↔ d = 0 := by
  constructor
  · intro hchar
    have hnat := toNat_digitChar h
    rw [hchar] at hnat
    have : ('0' : Char).toNat = 48 := rfl
    omega
  · rintro rfl
    rfl

/-! ## Values -/

theorem foldl_digits (base : Nat) : ∀ (cs : List Char) (start : Nat),
    cs.foldl (fun n c => n * base + hexValue c) start =
      start * base ^ cs.length + digitsValue base cs := by
  intro cs
  induction cs with
  | nil => intro start; simp [digitsValue]
  | cons c rest ih =>
    intro start
    unfold digitsValue
    rw [List.foldl_cons, List.foldl_cons, ih, ih, List.length_cons, pow_succ]
    ring

theorem digitsValue_append (base : Nat) (xs ys : List Char) :
    digitsValue base (xs ++ ys) = digitsValue base xs * base ^ ys.length + digitsValue base ys := by
  conv_lhs => unfold digitsValue
  rw [List.foldl_append]
  exact foldl_digits base ys _

theorem digitsValue_cons (base : Nat) (c : Char) (cs : List Char) :
    digitsValue base (c :: cs) = hexValue c * base ^ cs.length + digitsValue base cs := by
  have h := digitsValue_append base [c] cs
  simpa [digitsValue] using h

theorem length_zeros (k : Nat) : (zeros k).length = k :=
  List.length_replicate

theorem digitsValue_zeros (k : Nat) : digitsValue 10 (zeros k) = 0 := by
  induction k with
  | zero => rfl
  | succ k ih =>
    show digitsValue 10 ('0' :: zeros k) = 0
    rw [digitsValue_cons, ih]
    simp [show hexValue '0' = 0 from rfl]

theorem digitsValue_zeros_append (k : Nat) (cs : List Char) :
    digitsValue 10 (zeros k ++ cs) = digitsValue 10 cs := by
  rw [digitsValue_append, digitsValue_zeros, Nat.zero_mul, Nat.zero_add]

theorem digitsValue_append_zeros (cs : List Char) (k : Nat) :
    digitsValue 10 (cs ++ zeros k) = digitsValue 10 cs * 10 ^ k := by
  rw [digitsValue_append, digitsValue_zeros, length_zeros, Nat.add_zero]

/-! ## The digits of a number -/

theorem digitList_go (n : Nat) (tail : List Nat) :
    digitList.go n tail = (Nat.digits 10 n).reverse ++ tail := by
  induction n using Nat.strong_induction_on generalizing tail with
  | _ n ih =>
    rw [digitList.go]
    split
    next h => subst h; simp
    next h =>
      rw [ih (n / 10) (by omega), Nat.digits_eq_cons_digits_div (by omega) h, List.reverse_cons,
        List.append_assoc]
      rfl

/-- The digit list is the digits of the library, most significant first. -/
theorem digitList_eq (n : Nat) : digitList n = (Nat.digits 10 n).reverse := by
  rw [digitList, digitList_go, List.append_nil]

theorem digitList_lt {n d : Nat} (h : d ∈ digitList n) : d < 10 := by
  rw [digitList_eq, List.mem_reverse] at h
  exact Nat.digits_lt_base (by omega) h

theorem digitList_ne_nil {n : Nat} (h : n ≠ 0) : digitList n ≠ [] := by
  rw [digitList_eq, Ne, List.reverse_eq_nil_iff]
  exact Nat.digits_ne_nil_iff_ne_zero.mpr h

theorem digitCount_eq (n : Nat) : digitCount n = (Nat.digits 10 n).length := by
  rw [digitCount, digitList_eq, List.length_reverse]

theorem length_digitChars (n : Nat) : (digitChars n).length = digitCount n :=
  List.length_map ..

theorem digitCount_pos {n : Nat} (h : n ≠ 0) : 0 < digitCount n :=
  List.length_pos_iff.mpr (digitList_ne_nil h)

/-- **A number has as many digits as its size asks for.** -/
theorem digitCount_bounds {n : Nat} (h : n ≠ 0) :
    10 ^ (digitCount n - 1) ≤ n ∧ n < 10 ^ digitCount n := by
  have hpos := digitCount_pos h
  rw [digitCount_eq] at hpos ⊢
  constructor
  · have hle := Nat.base_pow_length_digits_le 10 n (by omega) h
    have hpow : 10 ^ (Nat.digits 10 n).length = 10 * 10 ^ ((Nat.digits 10 n).length - 1) := by
      rw [← pow_succ', Nat.sub_add_cancel hpos]
    omega
  · exact Nat.lt_base_pow_length_digits (by omega)

theorem digitChars_all (n : Nat) : ∀ c ∈ digitChars n, isAsciiDigit c = true := by
  intro c hc
  obtain ⟨d, hd, rfl⟩ := List.mem_map.mp hc
  exact isAsciiDigit_digitChar (digitList_lt hd)

/-- The first digit of a number is not zero. -/
theorem digitChars_head {n : Nat} (h : n ≠ 0) :
    ∃ c rest, digitChars n = c :: rest ∧ c ≠ '0' := by
  obtain ⟨d, ds, hds⟩ := List.exists_cons_of_ne_nil (digitList_ne_nil h)
  refine ⟨digitChar d, ds.map digitChar, by rw [digitChars, hds, List.map_cons], fun hzero => ?_⟩
  have hlt : d < 10 := digitList_lt (by rw [hds]; exact List.mem_cons_self)
  have hlast := Nat.getLast_digit_ne_zero 10 h
  have hd := hds
  rw [digitList_eq] at hd
  have hrev : Nat.digits 10 n = ds.reverse ++ [d] := by
    rw [← List.reverse_reverse (Nat.digits 10 n), hd, List.reverse_cons]
  apply hlast
  simp only [hrev, List.getLast_append_singleton]
  exact (digitChar_eq_zero hlt).mp hzero

theorem digitsValue_map_digitChar : ∀ (ds : List Nat), (∀ d ∈ ds, d < 10) →
    digitsValue 10 (ds.reverse.map digitChar) = Nat.ofDigits 10 ds := by
  intro ds
  induction ds with
  | nil => intro _; rfl
  | cons d ds ih =>
    intro h
    obtain ⟨hd, hds⟩ := List.forall_mem_cons.mp h
    rw [List.reverse_cons, List.map_append, digitsValue_append, ih hds, Nat.ofDigits_cons]
    simp [digitsValue, hexValue_digitChar hd]
    ring

/-- **The digits of a number spell it.** -/
@[simp] theorem digitsValue_digitChars (n : Nat) : digitsValue 10 (digitChars n) = n := by
  rw [digitChars, digitList_eq,
    digitsValue_map_digitChar _ fun d hd => Nat.digits_lt_base (by omega) hd, Nat.ofDigits_digits]

/-! ## Whole numbers written out -/

theorem natText_zero : natText 0 = ['0'] := by
  simp [natText]

theorem natText_of_ne {n : Nat} (h : n ≠ 0) : natText n = digitChars n :=
  if_neg h

@[simp] theorem digitsValue_natText (n : Nat) : digitsValue 10 (natText n) = n := by
  by_cases h : n = 0
  · subst h
    rw [natText_zero]
    rfl
  · rw [natText_of_ne h, digitsValue_digitChars]

theorem natText_all (n : Nat) : ∀ c ∈ natText n, isAsciiDigit c = true := by
  by_cases h : n = 0
  · subst h
    rw [natText_zero]
    simp [isAsciiDigit]
  · rw [natText_of_ne h]
    exact digitChars_all n

/-- A written number is not empty, and starts with zero only if it is zero. -/
theorem natText_head (n : Nat) :
    ∃ c rest, natText n = c :: rest ∧ isAsciiDigit c = true ∧ (c = '0' → rest = []) := by
  by_cases h : n = 0
  · subst h
    exact ⟨'0', [], natText_zero, rfl, fun _ => rfl⟩
  · obtain ⟨c, rest, hchars, hc⟩ := digitChars_head h
    refine ⟨c, rest, (natText_of_ne h).trans hchars, ?_, fun hzero => absurd hzero hc⟩
    exact digitChars_all n c (by rw [hchars]; exact List.mem_cons_self)

end Mooring.Decimal
