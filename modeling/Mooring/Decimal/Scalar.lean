import Mooring.Decimal.Layout

/-!
# Number systems for scores

Scores are sums and products of a few fractions.  The formulas are written once, over any number
system with the operations below; the program runs them on doubles, and statements about the
formulas themselves are made on exact fractions.
-/

namespace Mooring.Decimal

/-- A number system in which scores can be computed. -/
class Scalar (α : Type) extends Add α, Mul α, Div α where
  /-- The number nearest to a fraction under a sign. -/
  ofFraction : Bool → Nat → Nat → α
  /-- What a number is worth. -/
  parts : α → Parts
  /-- Strictly smaller. -/
  less : α → α → Bool
  /-- Smaller or equal. -/
  atMost : α → α → Bool

instance : Scalar Float where
  ofFraction := nearest
  parts := Decimal.parts
  less a b := a < b
  atMost a b := a ≤ b

instance : Scalar Rat where
  ofFraction negative num den :=
    let r := mkRat num den
    if negative then -r else r
  parts r := .finite (r < 0) r.num.natAbs r.den
  less a b := a < b
  atMost a b := a ≤ b

namespace Scalar

variable {α : Type} [Scalar α]

/-- The quotient of two natural numbers. -/
def ratio (num den : Nat) : α :=
  ofFraction false num den

/-- A number of hundredths. -/
def hundredths (n : Nat) : α :=
  ratio n 100

/-- Zero. -/
def zero : α :=
  hundredths 0

/-- One. -/
def one : α :=
  hundredths 100

/-- The number nearest to a finite double; zero for any other. -/
def ofFloat (x : Float) : α :=
  match Decimal.parts x with
  | .finite negative num den => ofFraction negative num den
  | _ => zero

/-- The number rounded to `places` decimal places, halves of its exact value to the even neighbour;
the sign stays, on zero too. -/
def round (places : Nat) (x : α) : α :=
  match parts x with
  | .finite negative num den =>
    ofFraction negative (roundToPlaces places num den) (10 ^ places)
  | _ => x

/-- The nearest whole percentage; zero for what is not finite, which has none. -/
def percent (x : α) : Int :=
  match parts (x * hundredths 10000) with
  | .finite negative num den =>
    let n : Int := roundDiv num den
    if negative then -n else n
  | _ => 0

/-- The number with two places. -/
def twoPlaces (x : α) : List Char :=
  (parts x).fixedText 2

/-- The number as a whole percentage with its sign. -/
def percentText (x : α) : List Char :=
  (parts (x * hundredths 10000)).fixedText 0 ++ ['%']

end Scalar

end Mooring.Decimal
