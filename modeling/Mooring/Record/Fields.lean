import Mooring.Record.Problem
import Mooring.Decimal.Reading
import Mooring.Settings.Budgets

/-!
# Reading the fields of a record

A record is read from a JSON object field by field.  A field is looked up under its name and, if it
is not there, under its second spelling.  Names that no field took are kept: they are somebody
else's and are written back as they were.

Numbers may come as texts.  The notation is narrower than that of settings: ASCII digits, single
underscores inside, and for a whole number a point with nothing but zeros after it.
-/

namespace Mooring.Record

open Mooring.Decimal Mooring.Text

/-- The two spellings of a field's name. -/
structure Key where
  name : String
  spelling : String

/-- A field whose name has one spelling only. -/
def Key.plain (name : String) : Key :=
  ⟨name, name⟩

/-- The spelling under which an object has the field. -/
def Key.found? (key : Key) (fields : Table Json) : Option String :=
  if fields.has key.name then some key.name
  else if fields.has key.spelling then some key.spelling
  else none

/-- The value of a field. -/
def Key.get? (key : Key) (fields : Table Json) : Option Json :=
  (key.found? fields).bind fields.get?

/-- The names that none of the fields takes. -/
def extras (keys : List Key) (fields : Table Json) : Table Json :=
  fields.filter fun (name, _) => !(keys.any fun key => key.found? fields == some name)

/-- A field that must be there. -/
def Key.required {α : Type} (key : Key) (check : Json → Checked α) (fields : Table Json) :
    Checked α :=
  Checked.under (.field key.name) <|
    match key.get? fields with
    | some value => check value
    | none => .refuse .missing

/-- A field that has a default when it is missing. -/
def Key.defaulting {α : Type} (key : Key) (default : α) (check : Json → Checked α)
    (fields : Table Json) : Checked α :=
  match key.get? fields with
  | some value => Checked.under (.field key.name) (check value)
  | none => .ok default

/-- A field that may be missing or null. -/
def Key.optional {α : Type} (key : Key) (check : Json → Checked α) (fields : Table Json) :
    Checked (Option α) :=
  match key.get? fields with
  | none | some .null => .ok none
  | some value => Checked.under (.field key.name) ((check value).map some)

/-- A text. -/
def text : Json → Checked String
  | .string s => .ok s
  | _ => .refuse .notText

/-- A list whose items all pass a check. -/
def listOf {α : Type} (check : Json → Checked α) : Json → Checked (List α)
  | .array values => Checked.items check 0 values
  | _ => .refuse .notList

/-- The fields of an object that should describe a record. -/
def objectOf (what : String) : Json → Checked (Table Json)
  | .object fields => .ok fields
  | _ => .refuse (.notObject what)

/-! ### Numbers -/

/-- The text without its underscores, if they stand alone between other characters. -/
def withoutUnderscores? (cs : List Char) : Option (List Char) :=
  if cs.head? == some '_' || cs.getLast? == some '_' || !cs.contains '_' ||
      occursIn ['_', '_'] cs then none
  else some (cs.filter (· != '_'))

/-- The digits after a sign, without a leading zero: a whole number in its one plain spelling. -/
def plainInteger? (cs : List Char) : Option Int :=
  let (negative, digits) :=
    match cs with
    | '-' :: rest => (true, rest)
    | _ => (false, cs)
  if digits.isEmpty || !digits.all isAsciiDigit then none
  else if digits.head? == some '0' && 1 < digits.length then none
  else
    let n : Int := digitsValue 10 digits
    some (if negative then -n else n)

/-- What follows leading zeros and underscores; the last zero stays before a point and at the end
of the text. -/
def afterZeros? : List Char → Option (List Char)
  | [] => none
  | '0' :: rest =>
    match rest.dropWhile fun c => c == '0' || c == '_' with
    | [] => some [rest.getLast?.getD '0']
    | '.' :: after =>
      some (((rest.takeWhile fun c => c == '0' || c == '_').getLast?.getD '0') :: '.' :: after)
    | c :: after => if isAsciiDigit c then some (c :: after) else none
  | c :: rest => if isAsciiDigit c || c == '-' then some (c :: rest) else none

/-- A text without a point that only zeros follow. -/
def withoutZeroPlaces (cs : List Char) : List Char :=
  match splitBefore? (· == '.') cs with
  | some (whole, _ :: places) => if places.all (· == '0') then whole else cs
  | _ => cs

/-- A whole number from a text in one of its looser spellings, blanks around it left out. -/
def looseInteger? (trimmed : List Char) : Option Int :=
  let unsigned :=
    match trimmed with
    | '+' :: '-' :: _ => none
    | '+' :: rest => some rest
    | _ => some trimmed
  (unsigned.bind afterZeros?).bind fun cs =>
    let cs := withoutZeroPlaces cs
    plainInteger? ((withoutUnderscores? cs).getD cs)

/-- Whole numbers in texts have at most so many digits. -/
def maxIntegerDigits : Nat := 4300

/-- A text without the blanks around it. -/
def trimNumber (s : String) : List Char :=
  dropTrailing isNumberBlank (s.toList.dropWhile isNumberBlank)

/-- A whole number: a number without a fraction, a truth value, or a text that spells a whole
number. -/
def wholeNumber : Json → Checked Int
  | .int n => .ok n
  | .bool b => .ok (if b then 1 else 0)
  | .float x =>
    match Decimal.parts x with
    | .finite negative num den =>
      if num % den != 0 then .refuse .fractional
      else if num / den ≥ 2 ^ 63 then .refuse .oversizedInteger
      else .ok (if negative then -((num / den : Nat) : Int) else (num / den : Nat))
    | _ => .refuse .notFinite
  | .string s =>
    let trimmed := trimNumber s
    if maxIntegerDigits < trimmed.length && trimmed.all isAsciiDigit then .refuse .oversizedInteger
    else
      match plainInteger? trimmed with
      | some n => .ok n
      | none =>
        match looseInteger? trimmed with
        | some n => .ok n
        | none => .refuse .unreadableInteger
  | _ => .refuse .notInteger

/-- The number of a line, counted from 1. -/
abbrev LineNumber := { n : Int // 1 ≤ n }

/-- A whole number that is at least 1. -/
def lineNumber (value : Json) : Checked LineNumber :=
  match wholeNumber value with
  | .ok n => if h : 1 ≤ n then .ok ⟨n, h⟩ else .refuse (.below 1)
  | .error problems => .error problems

/-- A number from a text in ASCII without underscores. -/
def plainNumber? (cs : List Char) : Option Float :=
  if cs.all fun c => c.toNat < 128 && c != '_' then readFloat? cs else none

/-- A number: a number, a truth value, or a text that spells a number. -/
def number : Json → Checked Float
  | .float x => .ok x
  | .bool b => .ok (nearest false (if b then 1 else 0) 1)
  | .int n =>
    match Settings.floatOfInt? n with
    | some x => .ok x
    | none => .refuse .notNumber
  | .string s =>
    match plainNumber? (trimNumber s) with
    | some x => .ok x
    | none =>
      match (withoutUnderscores? s.toList).filter fun cs => !cs.any isBlank with
      | some cs =>
        match plainNumber? cs with
        | some x => .ok x
        | none => .refuse .unreadableNumber
      | none => .refuse .unreadableNumber
  | _ => .refuse .notNumber

/-- A number from 0 to 1. -/
def fraction (value : Json) : Checked Float :=
  match number value with
  | .ok x => if x > 1 then .refuse (.above 1) else if x < 0 then .refuse (.below 0) else .ok x
  | .error problems => .error problems

end Mooring.Record
