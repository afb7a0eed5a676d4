import Mooring.Decimal.Shortest

/-!
# Writing numbers

The written forms of a double: the shortest digits, always with a point or an exponent
(`floatText`); six significant digits without trailing zeros (`generalText`); a fixed number of
places (`fixedText`); and whole percent (`percentText`).  Rounding is always of the exact value,
halves to the even neighbour.
-/

namespace Mooring.Decimal

/-- The characters of `digits`, most significant first. -/
def digitChars (digits : Nat) : List Char :=
  (digitList digits).map digitChar

/-- `n` zeros. -/
def zeros (n : Nat) : List Char :=
  List.replicate n '0'

/-- The digits with the decimal point after the first `point` of them, zeros filled in on either
side; no point when nothing follows it. -/
def positional (digits : List Char) (point : Int) : List Char :=
  let whole :=
    if 0 < point then
      digits.take point.toNat ++ zeros (point.toNat - digits.length)
    else ['0']
  let places :=
    if 0 < point then digits.drop point.toNat else zeros (-point).toNat ++ digits
  if places.isEmpty then whole else whole ++ '.' :: places

/-- An exponent with its sign and at least two digits. -/
def exponentText (e : Int) : List Char :=
  let digits := natText e.natAbs
  'e' :: (if e < 0 then '-' else '+') :: (zeros (2 - digits.length) ++ digits)

/-- The digits with a point after the first one and the exponent that this takes. -/
def scientific (digits : List Char) (point : Int) : List Char :=
  digits.take 1 ++ (if digits.length ≤ 1 then [] else '.' :: digits.drop 1) ++
    exponentText (point - 1)

/-- A minus sign for a negative number. -/
def signText (negative : Bool) : List Char :=
  if negative then ['-'] else []

/-- Infinity. -/
def infinityText (negative : Bool) : List Char :=
  signText negative ++ ['i', 'n', 'f']

/-- What is not a number. -/
def nanText : List Char :=
  ['n', 'a', 'n']

/-- A numeral written out: positional when the first digit stands for a power of ten from minus
four to fifteen, and then with at least one place; otherwise with an exponent. -/
def Numeral.text (n : Numeral) : List Char :=
  if n.digits = 0 then signText n.negative ++ ['0', '.', '0']
  else
    let digits := digitChars n.digits
    let point := (digits.length : Int) + n.exponent
    let body :=
      if -4 < point ∧ point ≤ 16 then
        let body := positional digits point
        if body.contains '.' then body else body ++ ['.', '0']
      else scientific digits point
    signText n.negative ++ body

/-- The shortest digits that read back as the double. -/
def floatText (x : Float) : List Char :=
  match parts x with
  | .nan => nanText
  | .infinite negative => infinityText negative
  | .finite .. => ((shortest? x).map Numeral.text).getD nanText

/-- The fraction `num / den` to six significant digits, without zeros at the end. -/
def generalDigits (num den : Nat) : List Char :=
  if num = 0 then ['0']
  else
    let top := decimalExponent num den
    let exponent := top - 6
    let rounded :=
      if 0 ≤ exponent then roundDiv num (den * 10 ^ exponent.toNat)
      else roundDiv (num * 10 ^ (-exponent).toNat) den
    let (digits, exponent) := dropZeros rounded exponent
    let digits := digitChars digits
    let point := (digits.length : Int) + exponent
    if -4 < point ∧ point ≤ 6 then positional digits point else scientific digits point

/-- A number to six significant digits. -/
def Parts.generalText : Parts → List Char
  | .nan => nanText
  | .infinite negative => infinityText negative
  | .finite negative num den => signText negative ++ generalDigits num den

/-- A number with a fixed number of places. -/
def Parts.fixedText (places : Nat) : Parts → List Char
  | .nan => nanText
  | .infinite negative => infinityText negative
  | .finite negative num den =>
    let digits := natText (roundToPlaces places num den)
    let digits := zeros (places + 1 - digits.length) ++ digits
    signText negative ++ positional digits ((digits.length : Int) - places)

/-- The double to six significant digits. -/
def generalText (x : Float) : List Char :=
  (parts x).generalText

end Mooring.Decimal
