/-!
# The calendar

Dates of the years 1 to 9999 in the calendar in use today, carried back before its introduction.
Days are numbered so that the first day of the year 1 has number 1.
-/

namespace Mooring.Moment

/-- The year has a 29th of February. -/
def isLeap (year : Nat) : Bool :=
  year % 4 == 0 && (year % 100 != 0 || year % 400 == 0)

/-- The number of days in a month; none outside the twelve. -/
def daysInMonth (year month : Nat) : Nat :=
  match month with
  | 1 | 3 | 5 | 7 | 8 | 10 | 12 => 31
  | 4 | 6 | 9 | 11 => 30
  | 2 => if isLeap year then 29 else 28
  | _ => 0

/-- The number of days in a year. -/
def daysInYear (year : Nat) : Nat :=
  if isLeap year then 366 else 365

/-- The number of days before a year. -/
def daysBeforeYear (year : Nat) : Nat :=
  let y := year - 1
  y * 365 + y / 4 - y / 100 + y / 400

/-- The number of days of a year before a month. -/
def daysBeforeMonth (year month : Nat) : Nat :=
  ((List.range (month - 1)).map fun m => daysInMonth year (m + 1)).foldl (· + ·) 0

/-- A date. -/
structure Date where
  year : Nat
  month : Nat
  day : Nat
  deriving Repr, DecidableEq

/-- The date exists. -/
def Date.isValid (d : Date) : Bool :=
  1 ≤ d.year && d.year ≤ 9999 && 1 ≤ d.day && d.day ≤ daysInMonth d.year d.month

/-- The number of a day. -/
def Date.number (d : Date) : Nat :=
  daysBeforeYear d.year + daysBeforeMonth d.year d.month + d.day

/-- The month and day that a day of a year falls on, counted from `month` on.  `fuel` bounds the
number of months. -/
def monthAndDay (year month : Nat) : Nat → Nat → Nat × Nat
  | 0, day => (month, day)
  | fuel + 1, day =>
    let days := daysInMonth year month
    if day ≤ days then (month, day) else monthAndDay year (month + 1) fuel (day - days)

/-- The date of a day of a year or one of the years beside it; the day is counted from the first of
January and may be zero or negative. -/
def dateOfYearDay (year : Nat) (day : Int) : Date :=
  if day < 1 then
    let (month, day) := monthAndDay (year - 1) 1 12 (day + daysInYear (year - 1)).toNat
    ⟨year - 1, month, day⟩
  else if daysInYear year < day then
    let (month, day) := monthAndDay (year + 1) 1 12 (day - daysInYear year).toNat
    ⟨year + 1, month, day⟩
  else
    let (month, day) := monthAndDay year 1 12 day.toNat
    ⟨year, month, day⟩

/-- The day of the week, Monday being 0. -/
def weekday (d : Date) : Nat :=
  (d.number + 6) % 7

/-- The year has a week 53. -/
def hasWeek53 (year : Nat) : Bool :=
  let first := weekday ⟨year, 1, 1⟩
  first == 3 || (first == 2 && isLeap year)

/-- The date of a day of a numbered week, Monday being day 1.  The first week of a year is the one
with its first Thursday. -/
def dateOfWeek? (year week day : Nat) : Option Date :=
  if year == 0 || week == 0 || 54 ≤ week || (week == 53 && !hasWeek53 year) || day == 0 ||
      8 ≤ day then none
  else
    let first := weekday ⟨year, 1, 1⟩
    let monday : Int := if first ≤ 3 then 1 - (first : Int) else 8 - (first : Int)
    some (dateOfYearDay year (monday + 7 * ((week : Int) - 1) + ((day : Int) - 1)))

/-- The year of a day, counted from `year` on, and the day of that year; `fuel` bounds the number of
years. -/
def yearAndDay (year : Nat) : Nat → Nat → Nat × Nat
  | 0, day => (year, day)
  | fuel + 1, day =>
    if day ≤ daysInYear year then (year, day)
    else yearAndDay (year + 1) fuel (day - daysInYear year)

/-- The date of a numbered day. -/
def Date.ofNumber (number : Nat) : Date :=
  let (year, day) := yearAndDay 1 number number
  dateOfYearDay year day

end Mooring.Moment
