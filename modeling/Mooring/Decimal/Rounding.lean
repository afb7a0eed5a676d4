/-!
# Rounding a quotient

Every rounding in this library is one rule: a quotient of natural numbers goes to the nearest whole
number, and a quotient halfway between two goes to the even one.
-/

-- A power of natural numbers is that of the core library, also where algebra offers another one.
attribute [instance (high)] instPowNat
attribute [default_instance high + 1] instPowNat

namespace Mooring.Decimal

/-- `num / den` rounded to the nearest natural number, halves to the even one. -/
def roundDiv (num den : Nat) : Nat :=
  let floor := num / den
  let rest := 2 * (num % den)
  if rest < den then floor
  else if den < rest then floor + 1
  else if floor % 2 == 0 then floor else floor + 1

/-- `num / den` rounded to whole units of ten to the minus `places`, in those units. -/
def roundToPlaces (places num den : Nat) : Nat :=
  roundDiv (num * 10 ^ places) den

/-- The decimal digits of a number, most significant first; zero has none. -/
def digitList (n : Nat) : List Nat :=
  go n []
where
  /-- Puts the digits of `n` in front of `tail`. -/
  go (n : Nat) (tail : List Nat) : List Nat :=
    if _h : n = 0 then tail else go (n / 10) (n % 10 :: tail)
  termination_by n

/-- How many decimal digits a number has; zero has none. -/
def digitCount (n : Nat) : Nat :=
  (digitList n).length

/-- The character of a decimal digit. -/
def digitChar (d : Nat) : Char :=
  Char.ofNat (48 + d)

/-- The number in decimal digits. -/
def natText (n : Nat) : List Char :=
  if n = 0 then ['0'] else (digitList n).map digitChar

/-- The whole number in decimal digits, with a minus sign below zero. -/
def intText (n : Int) : List Char :=
  if n < 0 then '-' :: natText n.natAbs else natText n.natAbs

end Mooring.Decimal
