import Mooring.Decimal.Binary64

/-!
# The shortest digits of a double

Many numerals read back as the same double.  `shortest` picks one with the fewest digits, and among
those the one nearest to the exact value.  For each number of digits only the two neighbours of the
value on that decimal grid can qualify, and whether they do is decided by reading them back.
-/

namespace Mooring.Decimal

/-- The exponent `k` with `10 ^ (k - 1) ≤ num / den < 10 ^ k`, for a fraction above zero. -/
def decimalExponent (num den : Nat) : Int :=
  if den ≤ num then digitCount (num / den)
  else
    let places := digitCount (den / num)
    if den ≤ num * 10 ^ (places - 1) then 2 - (places : Int) else 1 - (places : Int)

/-- The numeral of `digits` units of ten to the power `exponent` reads back as the bits. -/
def readsBack (bits digits : Nat) (exponent : Int) : Bool :=
  let back :=
    if 0 ≤ exponent then nearestBits (digits * 10 ^ exponent.toNat) 1
    else nearestBits digits (10 ^ (-exponent).toNat)
  back == bits

/-- The numeral with unit ten to the power `exponent` that is nearest to `num / den` among the two
around it that read back as the bits. -/
def neighbour? (bits num den : Nat) (exponent : Int) : Option (Nat × Int) :=
  let num' := if 0 ≤ exponent then num else num * 10 ^ (-exponent).toNat
  let den' := if 0 ≤ exponent then den * 10 ^ exponent.toNat else den
  let below := num' / den'
  let close := roundDiv num' den'
  let other := if close = below then below + 1 else below
  if readsBack bits close exponent then some (close, exponent)
  else if readsBack bits other exponent then some (other, exponent)
  else none

/-- The exact decimal expansion of `num / den`, where `den` is a power of two. -/
def expansion (num den : Nat) : Nat × Int :=
  (num * 5 ^ den.log2, -(den.log2 : Int))

/-- Drops zeros at the end of the digits. -/
def dropZeros (digits : Nat) (exponent : Int) : Nat × Int :=
  if h : digits ≠ 0 ∧ digits % 10 = 0 then dropZeros (digits / 10) (exponent + 1)
  else (digits, exponent)
termination_by digits
decreasing_by omega

/-- The digits and exponent of the shortest numeral that reads back as the double with these bits
and this exact value. -/
def shortestDigits (bits num den : Nat) : Nat × Int :=
  let top := decimalExponent num den
  let found := (List.range 17).findSome? fun n => neighbour? bits num den (top - (n + 1 : Nat))
  let (digits, exponent) := found.getD (expansion num den)
  dropZeros digits exponent

/-- The shortest numeral of a finite double; `none` for infinities and for what is not a number. -/
def shortest? (x : Float) : Option Numeral :=
  match parts x with
  | .finite negative num den =>
    if num = 0 then some ⟨negative, 0, 0⟩
    else
      let (digits, exponent) := shortestDigits (nearestBits num den) num den
      some ⟨negative, digits, exponent⟩
  | _ => none

end Mooring.Decimal
