import Mooring.Json.Value
import Mooring.Text.Find
import Mooring.Text.Letters

/-!
# Reading JSON

A reader that says where a text stops being JSON and what it expected there.  It is more lenient
than the standard in one way: `NaN`, `Infinity` and `-Infinity` are numbers.

While reading, a place is known by how much text remains after it; `locate` turns that into a line,
a column and an offset.  Each value consumes text, so the length of the text bounds the nesting, and
twice that bound is the fuel of the recursion.
-/

namespace Mooring.Json

open Mooring.Text

/-- What a text that is not JSON lacks or holds. -/
inductive Fault
  | value
  | propertyName
  | colon
  | comma
  | extraData
  | unterminatedText
  | controlCharacter
  | badEscape
  | badUnicodeEscape
  | byteOrderMark
  deriving Repr, DecidableEq

/-- The fault in words. -/
def Fault.message : Fault → String
  | value => "Expecting value"
  | propertyName => "Expecting property name enclosed in double quotes"
  | colon => "Expecting ':' delimiter"
  | comma => "Expecting ',' delimiter"
  | extraData => "Extra data"
  | unterminatedText => "Unterminated string starting at"
  | controlCharacter => "Invalid control character at"
  | badEscape => "Invalid \\escape"
  | badUnicodeEscape => "Invalid \\uXXXX escape"
  | byteOrderMark => "Unexpected UTF-8 BOM (decode using utf-8-sig)"

/-- A fault and how many characters remain at its place, that place included. -/
structure Failure where
  fault : Fault
  remaining : Nat
  deriving Repr, DecidableEq

/-- A fault at a place of a text: its offset from 0, and its line and column from 1. -/
structure ReadError where
  fault : Fault
  line : Nat
  column : Nat
  offset : Nat
  deriving Repr, DecidableEq

/-- Finds the place of a failure in the text. -/
def Failure.locate (text : List Char) (failure : Failure) : ReadError :=
  let offset := text.length - failure.remaining
  let before := text.take offset
  { fault := failure.fault
    line := before.count '\n' + 1
    column := (before.reverse.takeWhile (· != '\n')).length + 1
    offset }

/-- The error in words. -/
def ReadError.message (e : ReadError) : String :=
  e.fault.message ++ ": line " ++ toString e.line ++ " column " ++ toString e.column ++
    " (char " ++ toString e.offset ++ ")"

/-- White space between the tokens of JSON. -/
def isSpace (c : Char) : Bool :=
  c == ' ' || c == '\t' || c == '\n' || c == '\r'

/-- The text after white space. -/
def skipSpace (cs : List Char) : List Char :=
  cs.dropWhile isSpace

/-- The value of four hexadecimal digits at the start of a text, which must not end right after
them, and what follows. -/
def unit? : List Char → Option (Nat × List Char)
  | a :: b :: c :: d :: e :: rest =>
    if isHexDigit a && isHexDigit b && isHexDigit c && isHexDigit d then
      some (digitsValue 16 [a, b, c, d], e :: rest)
    else none
  | _ => none

/-- The character of a short escape. -/
def escaped? (c : Char) : Option Char :=
  if c == '"' || c == '\\' || c == '/' then some c
  else if c == 'b' then some '\x08'
  else if c == 'f' then some '\x0c'
  else if c == 'n' then some '\n'
  else if c == 'r' then some '\r'
  else if c == 't' then some '\t'
  else none

/-- The character of a code unit that is no half of a pair; a lone half has no character and is
replaced. -/
def unitChar (unit : Nat) : Char :=
  if 0xd800 ≤ unit && unit ≤ 0xdfff then '\ufffd' else Char.ofNat unit

/-- The character of a unit escape and what follows it: a high half joins the low half in the
escape after it. -/
def joinUnits (unit : Nat) (rest : List Char) : Except Unit (Char × List Char) :=
  match rest with
  | '\\' :: 'u' :: more =>
    if 0xd800 ≤ unit && unit ≤ 0xdbff && 5 ≤ more.length then
      match unit? more with
      | some (low, after) =>
        if 0xdc00 ≤ low && low ≤ 0xdfff then
          .ok (Char.ofNat (0x10000 + (unit - 0xd800) * 0x400 + (low - 0xdc00)), after)
        else .ok (unitChar unit, rest)
      | none => .error ()
    else .ok (unitChar unit, rest)
  | _ => .ok (unitChar unit, rest)

/-- The rest of a quoted text up to its closing quote, and what follows; `opening` is what remained
at the opening quote. -/
def readText (opening : Nat) : Nat → List Char → Except Failure (List Char × List Char)
  | 0, _ => .error ⟨.unterminatedText, opening⟩
  | _ + 1, [] => .error ⟨.unterminatedText, opening⟩
  | fuel + 1, c :: rest =>
    if c == '"' then .ok ([], rest)
    else if c == '\\' then
      match rest with
      | [] => .error ⟨.unterminatedText, opening⟩
      | 'u' :: more =>
        match unit? more with
        | none => .error ⟨.badUnicodeEscape, rest.length⟩
        | some (unit, after) =>
          match joinUnits unit after with
          | .error () => .error ⟨.badUnicodeEscape, after.length - 1⟩
          | .ok (c, after) => (readText opening fuel after).map fun (s, rest) => (c :: s, rest)
      | e :: more =>
        match escaped? e with
        | none => .error ⟨.badEscape, rest.length + 1⟩
        | some c => (readText opening fuel more).map fun (s, rest) => (c :: s, rest)
    else if c.toNat < 32 then .error ⟨.controlCharacter, rest.length + 1⟩
    else (readText opening fuel rest).map fun (s, rest) => (c :: s, rest)

/-- Digits at the start of a text, and what follows. -/
def digitsOf (cs : List Char) : List Char × List Char :=
  (cs.takeWhile isAsciiDigit, cs.dropWhile isAsciiDigit)

/-- The whole part of a number: a single zero, or digits that start with another one. -/
def wholePart? : List Char → Option (List Char × List Char)
  | '0' :: rest => some (['0'], rest)
  | cs => if (digitsOf cs).1.isEmpty then none else some (digitsOf cs)

/-- The places after the point; without a digit there, the point is not part of the number. -/
def placesPart (cs : List Char) : Option (List Char) × List Char :=
  match cs with
  | '.' :: rest =>
    if (digitsOf rest).1.isEmpty then (none, cs)
    else (some (digitsOf rest).1, (digitsOf rest).2)
  | _ => (none, cs)

/-- The exponent; without a digit, the letter is not part of the number. -/
def exponentPart (cs : List Char) : Option Int × List Char :=
  match cs with
  | e :: rest =>
    if e == 'e' || e == 'E' then
      let (negative, body) : Bool × List Char :=
        match rest with
        | '-' :: more => (true, more)
        | '+' :: more => (false, more)
        | _ => (false, rest)
      if (digitsOf body).1.isEmpty then (none, cs)
      else
        let n : Int := digitsValue 10 (digitsOf body).1
        (some (if negative then -n else n), (digitsOf body).2)
    else (none, cs)
  | [] => (none, cs)

/-- A number without its sign, and what follows. -/
def readNumber? (negative : Bool) (cs : List Char) : Option (Json × List Char) := do
  let (whole, rest) ← wholePart? cs
  let (places, rest) := placesPart rest
  let (exponent, rest) := exponentPart rest
  if places.isNone && exponent.isNone then
    let n : Int := digitsValue 10 whole
    return (int (if negative then -n else n), rest)
  else
    let places := places.getD []
    let numeral : Decimal.Numeral :=
      ⟨negative, digitsValue 10 (whole ++ places), exponent.getD 0 - (places.length : Int)⟩
    return (float numeral.toFloat, rest)

/-- A value that is a word or a number. -/
def readPlain? (cs : List Char) : Option (Json × List Char) :=
  let word (text : String) (value : Json) : Option (Json × List Char) :=
    (afterLead? text.toList cs).map fun rest => (value, rest)
  match cs with
  | 'n' :: _ => word "null" null
  | 't' :: _ => word "true" (bool true)
  | 'f' :: _ => word "false" (bool false)
  | 'N' :: _ => word "NaN" (float (Float.ofBits 0x7ff8000000000000))
  | 'I' :: _ => word "Infinity" (float (Decimal.nearest false (2 ^ 1025) 1))
  | '-' :: rest =>
    (word "-Infinity" (float (Decimal.nearest true (2 ^ 1025) 1))).or (readNumber? true rest)
  | _ => readNumber? false cs

mutual

/-- A value at the start of a text, and what follows it. -/
def readValue : Nat → List Char → Except Failure (Json × List Char)
  | 0, cs => .error ⟨.value, cs.length⟩
  | fuel + 1, cs =>
    match cs with
    | '"' :: rest => do
      let (s, rest) ← readText cs.length (rest.length + 1) rest
      return (string (String.ofList s), rest)
    | '[' :: rest =>
      match skipSpace rest with
      | ']' :: after => .ok (array [], after)
      | first => do
        let (items, rest) ← readItems fuel first
        return (array items, rest)
    | '\x7b' :: rest =>
      match skipSpace rest with
      | '\x7d' :: after => .ok (object [], after)
      | first => do
        let (fields, rest) ← readFields fuel first
        return (object (Table.ofPairs fields), rest)
    | _ =>
      match readPlain? cs with
      | some found => .ok found
      | none => .error ⟨.value, cs.length⟩

/-- The items of an array up to its closing bracket. -/
def readItems : Nat → List Char → Except Failure (List Json × List Char)
  | 0, cs => .error ⟨.value, cs.length⟩
  | fuel + 1, cs => do
    let (item, rest) ← readValue fuel cs
    match skipSpace rest with
    | ']' :: after => return ([item], after)
    | ',' :: more =>
      let (items, after) ← readItems fuel (skipSpace more)
      return (item :: items, after)
    | other => .error ⟨.comma, other.length⟩

/-- The names and values of an object up to its closing brace. -/
def readFields : Nat → List Char → Except Failure (List (String × Json) × List Char)
  | 0, cs => .error ⟨.propertyName, cs.length⟩
  | fuel + 1, cs =>
    match cs with
    | '"' :: rest => do
      let (name, rest) ← readText cs.length (rest.length + 1) rest
      match skipSpace rest with
      | ':' :: more =>
        let (value, rest) ← readValue fuel (skipSpace more)
        match skipSpace rest with
        | '\x7d' :: after => return ([(String.ofList name, value)], after)
        | ',' :: more =>
          let (fields, after) ← readFields fuel (skipSpace more)
          return ((String.ofList name, value) :: fields, after)
        | other => .error ⟨.comma, other.length⟩
      | other => .error ⟨.colon, other.length⟩
    | _ => .error ⟨.propertyName, cs.length⟩

end

/-- Reads a whole text as one value. -/
def readAll (cs : List Char) : Except Failure Json := do
  if cs.head? == some '\ufeff' then .error ⟨.byteOrderMark, cs.length⟩
  let (value, rest) ← readValue (2 * cs.length + 2) (skipSpace cs)
  match skipSpace rest with
  | [] => return value
  | extra => .error ⟨.extraData, extra.length⟩

/-- Reads a text as one value. -/
def parse (text : String) : Except ReadError Json :=
  (readAll text.toList).mapError (·.locate text.toList)

end Mooring.Json
