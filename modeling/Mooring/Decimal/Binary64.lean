import Mooring.Decimal.Rounding

/-!
# Double-precision numbers as exact fractions

A finite double is an exact fraction, and `parts` says which.  `nearest` goes the other way: the
double closest to a fraction, halves to the even mantissa.  Reading a numeral, rounding to decimal
places and printing the shortest digits all go through these two functions, in exact arithmetic on
natural numbers.
-/

namespace Mooring.Decimal

/-- What a number of a number system is worth. -/
inductive Parts
  /-- Not a number. -/
  | nan
  /-- Beyond every number. -/
  | infinite (negative : Bool)
  /-- The fraction `num / den` under a sign; zero has a sign too. -/
  | finite (negative : Bool) (num den : Nat)
  deriving Repr, DecidableEq

/-- The exact value of a double. -/
def parts (x : Float) : Parts :=
  let bits := x.toBits.toNat
  let negative := 2 ^ 63 ≤ bits
  let field := bits / 2 ^ 52 % 2 ^ 11
  let fraction := bits % 2 ^ 52
  if field = 2047 then
    if fraction = 0 then .infinite negative else .nan
  else if field = 0 then .finite negative fraction (2 ^ 1074)
  else if 1075 ≤ field then .finite negative ((fraction + 2 ^ 52) * 2 ^ (field - 1075)) 1
  else .finite negative (fraction + 2 ^ 52) (2 ^ (1075 - field))

/-- `num / den` in units of two to the power `q`, rounded. -/
def inUnits (num den : Nat) (q : Int) : Nat :=
  if 0 ≤ q then roundDiv num (den * 2 ^ q.toNat) else roundDiv (num * 2 ^ (-q).toNat) den

/-- `num / den` in units of two to the power `q`, rounded down. -/
def wholeUnits (num den : Nat) (q : Int) : Nat :=
  if 0 ≤ q then num / (den * 2 ^ q.toNat) else num * 2 ^ (-q).toNat / den

/-- The exponent of the unit in which `num / den` has 53 binary digits, but at least the smallest
that a double has. -/
def unitExponent (num den : Nat) : Int :=
  let guess : Int := (num.log2 : Int) - (den.log2 : Int) - 52
  let q := if wholeUnits num den guess < 2 ^ 52 then guess - 1 else guess
  max q (-1074)

/-- The bits of the double nearest to `num / den`, without the sign. -/
def nearestBits (num den : Nat) : Nat :=
  if num = 0 then 0
  else
    let q := unitExponent num den
    if 971 < q then 2047 * 2 ^ 52
    else
      let mantissa := inUnits num den q
      let bits :=
        if mantissa < 2 ^ 52 then mantissa
        else (q + 1074).toNat * 2 ^ 52 + mantissa
      min bits (2047 * 2 ^ 52)

/-- The double nearest to `num / den` under a sign. -/
def nearest (negative : Bool) (num den : Nat) : Float :=
  Float.ofBits (UInt64.ofNat (nearestBits num den + if negative then 2 ^ 63 else 0))

/-- A numeral: a whole number of digits times a power of ten, under a sign. -/
structure Numeral where
  negative : Bool := false
  digits : Nat
  exponent : Int
  deriving Repr, DecidableEq

/-- The double nearest to a numeral.  Powers of ten far outside the range of doubles are not
computed. -/
def Numeral.toFloat (n : Numeral) : Float :=
  if n.digits = 0 then nearest n.negative 0 1
  else
    let size := (digitCount n.digits : Int) + n.exponent
    if 400 < size then nearest n.negative (2 ^ 1025) 1
    else if size < -400 then nearest n.negative 0 1
    else if 0 ≤ n.exponent then nearest n.negative (n.digits * 10 ^ n.exponent.toNat) 1
    else nearest n.negative n.digits (10 ^ (-n.exponent).toNat)

end Mooring.Decimal
