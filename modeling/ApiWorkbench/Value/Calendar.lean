/-!
# Dates and moments

Scalars of a document may be calendar dates or moments. A moment has a time of day down
to microseconds and may know its offset from universal time; only then can it be placed
on the universal time line.
-/

namespace ApiWorkbench

/-- A calendar date. -/
structure Date where
  year : Nat
  month : Nat
  day : Nat
deriving DecidableEq, Repr, Inhabited

/-- A date and a time of day, with the offset from universal time in minutes
if it is known. -/
structure Moment where
  date : Date
  hour : Nat
  minute : Nat
  second : Nat
  microsecond : Nat
  offset : Option Int
deriving DecidableEq, Repr, Inhabited

/-- `n` in decimal with at least `width` digits. -/
def paddedNumber (width n : Nat) : String :=
  let digits := toString n
  "".pushn '0' (width - digits.length) ++ digits

namespace Date

/-- Leap years of the Gregorian calendar. -/
def isLeapYear (year : Nat) : Bool :=
  year % 4 == 0 && (year % 100 != 0 || year % 400 == 0)

/-- The number of days of a month. -/
def daysInMonth (year month : Nat) : Nat :=
  if month == 2 then (if isLeapYear year then 29 else 28)
  else if month == 4 || month == 6 || month == 9 || month == 11 then 30
  else 31

/-- Whether the date exists, in a year from 1 to 9999. -/
def isValid (d : Date) : Bool :=
  1 ≤ d.year && d.year ≤ 9999 && 1 ≤ d.month && d.month ≤ 12 && 1 ≤ d.day
    && d.day ≤ daysInMonth d.year d.month

/-- Days from the start of the year 1 to the date. -/
def dayNumber (d : Date) : Nat :=
  let y := d.year - 1
  let months := (List.range (d.month - 1)).map fun m => daysInMonth d.year (m + 1)
  y * 365 + y / 4 - y / 100 + y / 400 + months.foldl (· + ·) 0 + (d.day - 1)

/-- The date as `year-month-day`. -/
def text (d : Date) : String :=
  paddedNumber 4 d.year ++ "-" ++ paddedNumber 2 d.month ++ "-" ++ paddedNumber 2 d.day

end Date

namespace Moment

/-- Whether the date exists and the time of day lies within a day. -/
def isValid (m : Moment) : Bool :=
  m.date.isValid && m.hour < 24 && m.minute < 60 && m.second < 60

/-- Microseconds from the start of the year 1, as the moment's own clock shows them. -/
def localMicroseconds (m : Moment) : Int :=
  (((m.date.dayNumber * 24 + m.hour) * 60 + m.minute) * 60 + m.second) *
    1000000 + m.microsecond

/-- Two moments are the same if they are the same instant, or show the same time with
no offset known. -/
def same (a b : Moment) : Bool :=
  match a.offset, b.offset with
  | none, none => a.localMicroseconds == b.localMicroseconds
  | some x, some y =>
      a.localMicroseconds - x * 60000000 == b.localMicroseconds - y * 60000000
  | _, _ => false

/-- An offset as sign, hours and minutes. -/
def offsetText (offset : Int) : String :=
  (if offset < 0 then "-" else "+") ++ paddedNumber 2 (offset.natAbs / 60) ++ ":"
    ++ paddedNumber 2 (offset.natAbs % 60)

/-- The moment with `gap` between date and time; microseconds only when there are
any. -/
def text (gap : String) (m : Moment) : String :=
  m.date.text ++ gap ++ paddedNumber 2 m.hour ++ ":" ++ paddedNumber 2 m.minute ++ ":"
    ++ paddedNumber 2 m.second
    ++ (if m.microsecond == 0 then "" else "." ++ paddedNumber 6 m.microsecond)
    ++ (match m.offset with
      | none => ""
      | some offset => offsetText offset)

end Moment

end ApiWorkbench
