import RowQuery.Calendar
import RowQuery.Digits

/-!
Points in time without a zone: a number of nanoseconds on the calendar, between the years -9999 and
9999.
-/

namespace RowQuery

/-- Nanoseconds of a second. -/
def nanosPerSecond : Int := 1000000000

/-- Nanoseconds of a day. -/
def nanosPerDay : Int := 86400 * nanosPerSecond

namespace DateTime

/-- The first nanosecond. -/
def least : Int := (Calendar.Date.toDays ⟨-Calendar.maxYear, 1, 1⟩) * nanosPerDay

/-- The last nanosecond. -/
def greatest : Int := (Calendar.Date.toDays ⟨Calendar.maxYear, 12, 31⟩ + 1) * nanosPerDay - 1

end DateTime

/-- A point in time, in nanoseconds from the first of March of the year zero. -/
structure DateTime where
  nanos : Int
  low : DateTime.least ≤ nanos
  high : nanos ≤ DateTime.greatest
deriving DecidableEq

namespace DateTime

/-- The point so many nanoseconds from the epoch, when it is on the calendar. -/
def ofNanos? (n : Int) : Option DateTime :=
  if h : least ≤ n ∧ n ≤ greatest then some ⟨n, h.1, h.2⟩ else none

/-- The point given by a date and a time of day, when both exist. -/
def ofParts? (date : Calendar.Date) (hour minute second nanos : Nat) : Option DateTime :=
  if date.valid && hour < 24 && minute < 60 && second < 60 && nanos < 1000000000 then
    ofNanos? (date.toDays * nanosPerDay + ((hour * 60 + minute) * 60 + second : Nat) * nanosPerSecond
      + nanos)
  else none

def date (t : DateTime) : Calendar.Date := Calendar.Date.ofDays (t.nanos / nanosPerDay)

/-- Seconds since midnight. -/
def secondOfDay (t : DateTime) : Nat := (t.nanos % nanosPerDay / nanosPerSecond).toNat

def hour (t : DateTime) : Nat := t.secondOfDay / 3600

def minute (t : DateTime) : Nat := t.secondOfDay / 60 % 60

def second (t : DateTime) : Nat := t.secondOfDay % 60

/-- Nanoseconds of the current second. -/
def nanosecond (t : DateTime) : Nat := (t.nanos % nanosPerSecond).toNat

/-- Midnight of the same day. -/
def midnight (t : DateTime) : DateTime :=
  (ofNanos? (t.nanos / nanosPerDay * nanosPerDay)).getD t

def two (n : Nat) : String := String.ofList (Digits.padded 2 n)

/-- The time of day as hours, minutes and seconds. -/
def clockText (t : DateTime) : String := two t.hour ++ ":" ++ two t.minute ++ ":" ++ two t.second

/-- A date as a year text, month and day. -/
def dateText (year : String) (d : Calendar.Date) : String :=
  year ++ "-" ++ two d.month ++ "-" ++ two d.day

/-- A year filled up to four characters, a minus sign counting as one of them. -/
def paddedYear (y : Int) : String :=
  if y < 0 then "-" ++ String.ofList (Digits.padded 3 y.natAbs)
  else String.ofList (Digits.padded 4 y.natAbs)

/-- A year of four digits after its sign. -/
def signedYear (y : Int) : String :=
  (if y < 0 then "-" else "") ++ String.ofList (Digits.padded 4 y.natAbs)

/-- Date and time with a space between them. -/
def text (t : DateTime) : String := dateText (paddedYear t.date.year) t.date ++ " " ++ t.clockText

/-- Date and time with a `T` between them, as data files have it. -/
def dataText (t : DateTime) : String := dateText (signedYear t.date.year) t.date ++ "T" ++ t.clockText

/-- Reads exactly `width` digits from the front of a text. -/
def digits? (width : Nat) (cs : List Char) : Option (Nat × List Char) :=
  (Digits.nat? (cs.take width)).bind fun n =>
    if width ≤ cs.length then some (n, cs.drop width) else none

/-- Reads one given character from the front of a text. -/
def mark? (c : Char) (cs : List Char) : Option (List Char) :=
  if cs.head? = some c then some (cs.drop 1) else none

/-- Reads a date: a year of four digits after an optional sign, month and day. -/
def date? (cs : List Char) : Option (Calendar.Date × List Char) := do
  let negative := cs.head? = some '-'
  let cs := if negative || cs.head? = some '+' then cs.drop 1 else cs
  let (year, cs) ← digits? 4 cs
  let cs ← mark? '-' cs
  let (month, cs) ← digits? 2 cs
  let cs ← mark? '-' cs
  let (day, cs) ← digits? 2 cs
  return (⟨if negative then -(year : Int) else year, month, day⟩, cs)

/-- Reads the time of day to the end of the text. -/
def clock? (cs : List Char) : Option (Nat × Nat × Nat) := do
  let (hour, cs) ← digits? 2 cs
  let cs ← mark? ':' cs
  let (minute, cs) ← digits? 2 cs
  let cs ← mark? ':' cs
  let (second, cs) ← digits? 2 cs
  if cs.isEmpty then some (hour, minute, second) else none

/-- Reads a date, alone or followed by a `T` or a space and the time of day. -/
def read? (s : String) : Option DateTime := do
  let (date, cs) ← date? s.toList
  if cs.isEmpty then ofParts? date 0 0 0 0
  else
    let cs ← (mark? 'T' cs).or (mark? ' ' cs)
    let (hour, minute, second) ← clock? cs
    ofParts? date hour minute second 0

end DateTime

end RowQuery
