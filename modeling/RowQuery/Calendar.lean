/-!
The proleptic Gregorian calendar, with a year zero. Days are counted from the first of March of the
year zero, so that the leap day is the last day of a counted year, and a cycle of four hundred years
has a fixed number of days.
-/

namespace RowQuery.Calendar

/-- A calendar day. -/
structure Date where
  year : Int
  month : Nat
  day : Nat
deriving DecidableEq, Repr

def isLeapYear (year : Int) : Bool := year % 4 == 0 && (year % 100 != 0 || year % 400 == 0)

/-- The number of days of a month, counted from one. -/
def daysInMonth (year : Int) (month : Nat) : Nat :=
  if month == 2 then if isLeapYear year then 29 else 28
  else if month == 4 || month == 6 || month == 9 || month == 11 then 30
  else 31

/-- The years that dates may have. -/
def maxYear : Int := 9999

/-- A date that exists and whose year is in range. -/
def Date.valid (d : Date) : Bool :=
  -maxYear ≤ d.year && d.year ≤ maxYear && 1 ≤ d.month && d.month ≤ 12 && 1 ≤ d.day &&
    d.day ≤ daysInMonth d.year d.month

/-- The number of days from the first of March of the year zero. -/
def Date.toDays (d : Date) : Int :=
  let year := if d.month ≤ 2 then d.year - 1 else d.year
  let month := if d.month ≤ 2 then d.month + 9 else d.month - 3
  let cycle := year / 400
  let inCycle := year % 400
  let dayOfYear : Int := (153 * month + 2) / 5 + d.day - 1
  cycle * 146097 + inCycle * 365 + inCycle / 4 - inCycle / 100 + dayOfYear

/-- The date a number of days after the first of March of the year zero. -/
def Date.ofDays (days : Int) : Date :=
  let cycle := days / 146097
  let inCycle := (days % 146097).toNat
  let year := (inCycle - inCycle / 1460 + inCycle / 36524 - inCycle / 146096) / 365
  let dayOfYear := inCycle - (365 * year + year / 4 - year / 100)
  let month := (5 * dayOfYear + 2) / 153
  let day := dayOfYear - (153 * month + 2) / 5 + 1
  let civil := if month < 10 then month + 3 else month - 9
  ⟨cycle * 400 + year + (if civil ≤ 2 then 1 else 0), civil, day⟩

end RowQuery.Calendar
