import Mooring.Decimal.Rounding
import Mooring.Moment.Calendar
import Mooring.Text.Find
import Mooring.Text.Letters

/-!
# Moments

A moment is a date with a time of day to the microsecond, and how far the clock that shows it is
ahead of universal time, if that is known.  Moments are read from the international notation in its
many forms — with and without hyphens and colons, by month or by week, with any character between
date and time — and written in one of them.
-/

namespace Mooring

open Mooring.Text

/-- A time of day. -/
structure Moment.Clock where
  hour : Nat := 0
  minute : Nat := 0
  second : Nat := 0
  micro : Nat := 0
  deriving Repr, DecidableEq

/-- A moment; `offset` is in microseconds. -/
structure Moment where
  date : Moment.Date
  clock : Moment.Clock := {}
  offset : Option Int := none
  deriving Repr, DecidableEq

namespace Moment

/-- Microseconds since midnight. -/
def Clock.micros (c : Clock) : Nat :=
  ((c.hour * 60 + c.minute) * 60 + c.second) * 1000000 + c.micro

/-- The time of day exists. -/
def Clock.isValid (c : Clock) : Bool :=
  c.hour < 24 && c.minute < 60 && c.second < 60

/-- Microseconds in a day. -/
def dayMicros : Nat := 86400000000

/-- The moment as a number of microseconds; universal time is meant where no offset is known. -/
def instant (m : Moment) : Int :=
  (m.date.number * dayMicros + m.clock.micros : Nat) - m.offset.getD 0

/-- The day from which the seconds of universal time are counted. -/
def epoch : Date := ⟨1970, 1, 1⟩

/-- The moment, in universal time, that lies some seconds after the epoch. -/
def ofSeconds (seconds : Int) : Moment :=
  let days := seconds.fdiv 86400
  let second := (seconds.fmod 86400).toNat
  { date := .ofNumber (epoch.number + days).toNat
    clock := { hour := second / 3600, minute := second / 60 % 60, second := second % 60 }
    offset := some 0 }

/-! ### Reading -/

/-- Exactly `count` digits at the start of a text: their value, and what follows. -/
def digits? (count : Nat) (cs : List Char) : Option (Nat × List Char) :=
  let run := cs.take count
  if run.length == count && run.all isAsciiDigit then some (digitsValue 10 run, cs.drop count)
  else none

/-- Where the date ends that a text starts with.  The fifth and sixth characters tell the forms
apart; in a week date without hyphens the parity of the digits tells whether the day is given. -/
def dateLength (cs : List Char) : Nat :=
  let isDigitAt (n : Nat) : Bool := (cs[n]?).any isAsciiDigit
  if cs.length == 7 then 7
  else if cs[4]? == some '-' then
    if cs[5]? == some 'W' then
      if cs[8]? == some '-' then if isDigitAt 10 then 8 else 10 else 8
    else 10
  else if cs[4]? == some 'W' then
    let run := 7 + ((cs.drop 7).takeWhile isAsciiDigit).length
    if run < 9 then run else if run % 2 == 0 then 7 else 8
  else 8

/-- The text after a hyphen, or the text itself where none is used. -/
def afterHyphen? (hyphens : Bool) (cs : List Char) : Option (List Char) :=
  if hyphens then
    match cs with
    | '-' :: rest => some rest
    | _ => none
  else some cs

/-- The date that a whole text spells. -/
def date? (cs : List Char) : Option Date := do
  let (year, rest) ← digits? 4 cs
  let hyphens := rest.head? == some '-'
  let rest := if hyphens then rest.drop 1 else rest
  match rest with
  | 'W' :: rest =>
    let (week, rest) ← digits? 2 rest
    if rest.isEmpty then dateOfWeek? year week 1
    else
      let (day, _) ← digits? 1 (← afterHyphen? hyphens rest)
      dateOfWeek? year week day
  | rest =>
    let (month, rest) ← digits? 2 rest
    let (day, _) ← digits? 2 (← afterHyphen? hyphens rest)
    return ⟨year, month, day⟩

/-- A fraction of a second in microseconds, from the digits after its point; digits beyond the sixth
are left out.  The flag tells that something else follows. -/
def micros? (cs : List Char) : Option (Nat × Bool) := do
  let count := min 6 cs.length
  let (value, rest) ← digits? count cs
  return (value * 10 ^ (6 - count), !(rest.dropWhile isAsciiDigit).isEmpty)

/-- What may come after the hours, minutes or seconds of a time. -/
inductive Joint
  /-- Nothing. -/
  | stop
  /-- One ASCII character and nothing after it. -/
  | dangling
  /-- The next two digits. -/
  | next (rest : List Char)
  /-- The fraction. -/
  | fraction (rest : List Char)
  deriving Repr, DecidableEq

/-- Reads on after a part of a time.  `colons` tells whether the parts are separated by colons. -/
def joint? (colons : Bool) : List Char → Option Joint
  | [] => some .stop
  | [c] => if c.toNat < 128 then some .dangling else none
  | c :: rest =>
    if colons && c == ':' then some (.next rest)
    else if c == '.' || c == ',' then some (.fraction rest)
    else if !colons then some (.next (c :: rest))
    else none

/-- The time that a text starts with, and whether something is left over. -/
def clock? (cs : List Char) : Option (Clock × Bool) := do
  let finish (c : Clock) (rest : List Char) : Option (Clock × Bool) := do
    let (micro, left) ← micros? rest
    return ({ c with micro }, left)
  let (hour, rest) ← digits? 2 cs
  let colons := rest.head? == some ':'
  match ← joint? colons rest with
  | .stop => return ({ hour }, false)
  | .dangling => return ({ hour }, true)
  | .fraction rest => finish { hour } rest
  | .next rest =>
    let (minute, rest) ← digits? 2 rest
    match ← joint? colons rest with
    | .stop => return ({ hour, minute }, false)
    | .dangling => return ({ hour, minute }, true)
    | .fraction rest => finish { hour, minute } rest
    | .next rest =>
      let (second, rest) ← digits? 2 rest
      match ← joint? colons rest with
      | .stop => return ({ hour, minute, second }, false)
      | .dangling => return ({ hour, minute, second }, true)
      | .fraction rest | .next rest => finish { hour, minute, second } rest

/-- The offset that a text after its sign spells, in microseconds.  Whole days are none, and a
fraction alone counts for nothing. -/
def offset? (negative : Bool) (cs : List Char) : Option Int := do
  let (c, left) ← clock? cs
  let size := if c.micros < 1000000 then 0 else c.micros
  if left || dayMicros ≤ size then none
  else return if negative then -(size : Int) else size

/-- The time with or without an offset that a whole text spells. -/
def time? (cs : List Char) : Option (Clock × Option Int) :=
  match splitBefore? (fun c => c == '+' || c == '-') cs with
  | some (clock, sign :: rest) => do
    let (c, _) ← clock? clock
    return (c, some (← offset? (sign == '-') rest))
  | _ => do
    let (c, left) ← clock? cs
    if left then none else return (c, none)

/-- The text with `+00:00` for every `Z`. -/
def spellOutZ (cs : List Char) : List Char :=
  cs.flatMap fun c => if c == 'Z' then "+00:00".toList else [c]

/-- The moment that a text spells. -/
def ofText? (s : String) : Option Moment := do
  let cs := spellOutZ s.toList
  let count := dateLength cs
  if cs.length < 7 then none
  else
    let date ← date? (cs.take count)
    let (clock, offset) ←
      match cs.drop count with
      | [] => some ({}, none)
      | _ :: rest => time? rest
    if date.isValid && clock.isValid then return { date, clock, offset } else none

/-! ### Writing -/

/-- A number in at least `width` digits. -/
def padded (width n : Nat) : List Char :=
  let digits := Decimal.natText n
  List.replicate (width - digits.length) '0' ++ digits

/-- An offset in writing. -/
def offsetText (offset : Int) : List Char :=
  let micros := offset.natAbs
  let seconds := micros / 1000000
  let sub := micros % 1000000
  (if offset < 0 then '-' else '+') :: padded 2 (seconds / 3600) ++ [':'] ++
    padded 2 (seconds / 60 % 60) ++
    (if seconds % 60 != 0 || sub != 0 then ':' :: padded 2 (seconds % 60) else []) ++
    (if sub != 0 then '.' :: padded 6 sub else [])

/-- The text with `Z` for every `+00:00`. -/
def shortenZ : List Char → List Char
  | '+' :: '0' :: '0' :: ':' :: '0' :: '0' :: rest => 'Z' :: shortenZ rest
  | c :: rest => c :: shortenZ rest
  | [] => []

/-- The moment in writing; a fraction of a second only if there is one. -/
def text (m : Moment) : String :=
  String.ofList <| shortenZ <|
    padded 4 m.date.year ++ ['-'] ++ padded 2 m.date.month ++ ['-'] ++ padded 2 m.date.day ++
      ['T'] ++ padded 2 m.clock.hour ++ [':'] ++ padded 2 m.clock.minute ++ [':'] ++
      padded 2 m.clock.second ++
      (if m.clock.micro != 0 then '.' :: padded 6 m.clock.micro else []) ++
      (m.offset.map offsetText).getD []

end Moment

end Mooring
