import Mooring.Decimal.Binary64
import Mooring.Text.Blank
import Mooring.Text.Find
import Mooring.Text.Letters
import Mooring.Text.Lower

/-!
# Reading typed numbers

The numbers people type: an optional sign, digits of any script with single underscores between
them, a point, an exponent, or one of the words for infinity and for what is not a number, with
blanks around.  The four information separators are not blanks here.
-/

namespace Mooring.Decimal

open Mooring.Text

/-- White space that may stand around a typed number. -/
def isNumberBlank (c : Char) : Bool :=
  isBlank c && !(28 ≤ c.toNat && c.toNat ≤ 31)

/-- A typed number without the blanks around it, its digits of any script written in ASCII. -/
def plainNumber (cs : List Char) : List Char :=
  (dropTrailing isNumberBlank (cs.dropWhile isNumberBlank)).map fun c =>
    match decimalValue? c with
    | some d => digitChar d
    | none => c

/-- Digits at the start of a text, with single underscores between them, and what follows them. -/
def digitRun : List Char → List Char × List Char
  | c :: '_' :: d :: rest =>
    if isAsciiDigit c && isAsciiDigit d then
      let (run, after) := digitRun (d :: rest)
      (c :: run, after)
    else if isAsciiDigit c then ([c], '_' :: d :: rest)
    else ([], c :: '_' :: d :: rest)
  | c :: rest =>
    if isAsciiDigit c then
      let (run, after) := digitRun rest
      (c :: run, after)
    else ([], c :: rest)
  | [] => ([], [])

/-- A sign at the start of a text: whether it is a minus, and what follows. -/
def signRun : List Char → Bool × List Char
  | '-' :: rest => (true, rest)
  | '+' :: rest => (false, rest)
  | cs => (false, cs)

/-- A typed whole number. -/
def readInt? (cs : List Char) : Option Int :=
  let (negative, body) := signRun (plainNumber cs)
  let (digits, rest) := digitRun body
  if digits.isEmpty || !rest.isEmpty then none
  else
    let n : Int := digitsValue 10 digits
    some (if negative then -n else n)

/-- An exponent, or nothing at all, up to the end of the text. -/
def exponentOf? : List Char → Option Int
  | [] => some 0
  | e :: rest =>
    if e == 'e' || e == 'E' then
      let (negative, body) := signRun rest
      let (digits, rest) := digitRun body
      if digits.isEmpty || !rest.isEmpty then none
      else
        let n : Int := digitsValue 10 digits
        some (if negative then -n else n)
    else none

/-- A numeral without its sign: digits with a point among or beside them, then an exponent. -/
def numeralOf? (negative : Bool) (cs : List Char) : Option Numeral :=
  let (whole, rest) := digitRun cs
  let (places, rest) :=
    match rest with
    | '.' :: rest => digitRun rest
    | _ => ([], rest)
  if whole.isEmpty && places.isEmpty then none
  else
    (exponentOf? rest).map fun e =>
      ⟨negative, digitsValue 10 (whole ++ places), e - (places.length : Int)⟩

/-- A double that is no number. -/
def notANumber : Float :=
  Float.ofBits 0x7ff8000000000000

/-- An infinite double. -/
def infinity (negative : Bool) : Float :=
  nearest negative (2 ^ 1025) 1

/-- A typed number. -/
def readFloat? (cs : List Char) : Option Float :=
  let (negative, body) := signRun (plainNumber cs)
  match numeralOf? negative body with
  | some numeral => some numeral.toFloat
  | none =>
    let name := String.ofList (body.map lowerChar)
    if body.any fun c => 128 ≤ c.toNat then none
    else if name == "inf" || name == "infinity" then some (infinity negative)
    else if name == "nan" then some notANumber
    else none

end Mooring.Decimal
