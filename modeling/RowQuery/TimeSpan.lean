import RowQuery.Binary
import RowQuery.DateTime
import RowQuery.Integer

/-!
Lengths of time, positive or negative: a number of nanoseconds whose whole seconds fit a signed
64-bit word. The components divide the whole seconds toward zero, so they all have the sign of the
length.
-/

namespace RowQuery

/-- A length of time in nanoseconds. -/
structure TimeSpan where
  nanos : Int
  holds : IntKind.int64.Holds (nanos.tdiv nanosPerSecond)
deriving DecidableEq

namespace TimeSpan

/-- The length of so many nanoseconds, when its seconds are in range. -/
def ofNanos? (n : Int) : Option TimeSpan :=
  if h : IntKind.int64.Holds (n.tdiv nanosPerSecond) then some ⟨n, h⟩ else none

/-- The whole seconds, toward zero. -/
def seconds (t : TimeSpan) : Int := t.nanos.tdiv nanosPerSecond

/-- The nanoseconds beyond the whole seconds, with the sign of the length. -/
def subseconds (t : TimeSpan) : Int := t.nanos.tmod nanosPerSecond

/-- The whole days, as far as a 32-bit word holds them. -/
def days (t : TimeSpan) : Word .int32 := Word.wrap .int32 (t.seconds.tdiv 86400)

def hours (t : TimeSpan) : Int := (t.seconds.tdiv 3600).tmod 24

def minutes (t : TimeSpan) : Int := (t.seconds.tdiv 60).tmod 60

def secondsOfMinute (t : TimeSpan) : Int := t.seconds.tmod 60

/-- The length in seconds as a binary number: whole seconds and fraction converted apart. -/
def totalSeconds (t : TimeSpan) : Double :=
  (Binary.ofInt t.seconds).add ((Binary.ofInt t.subseconds).div (Binary.ofInt nanosPerSecond))

/-- The length in units of so many seconds. -/
def totalIn (t : TimeSpan) (unit : Nat) : Double := t.totalSeconds.div (Binary.ofInt unit)

/-- The sum, when it is in range. -/
def add? (a b : TimeSpan) : Option TimeSpan := ofNanos? (a.nanos + b.nanos)

/-- The difference, when it is in range. -/
def sub? (a b : TimeSpan) : Option TimeSpan := ofNanos? (a.nanos - b.nanos)

/-- The nanoseconds of the length without its sign; the one length whose opposite is out of range
counts as the greatest. -/
def size (t : TimeSpan) : Nat :=
  if t.seconds = IntKind.int64.least then
    (IntKind.int64.greatest * nanosPerSecond + (nanosPerSecond - 1)).toNat
  else t.nanos.natAbs

/-- Days if there are any, the time of day, and tenths of microseconds if there are any. -/
def text (t : TimeSpan) : String :=
  let seconds := t.size / 1000000000
  let ticks := t.size % 1000000000 / 100
  let days := seconds / 86400
  let two (n : Nat) : List Char := Digits.padded 2 n
  String.ofList <|
    (if t.nanos < 0 then ['-'] else []) ++
    (if days = 0 then [] else Nat.toDigits 10 days ++ ['.']) ++
    two (seconds / 3600 % 24) ++ ':' :: two (seconds / 60 % 60) ++ ':' :: two (seconds % 60) ++
    (if ticks = 0 then [] else '.' :: Digits.padded 7 ticks)

/-- The length of a number of seconds, rounded to nanoseconds, a half to even. Above, the range ends
before `2 ^ 63` seconds. -/
def ofSeconds? (x : Double) : Option TimeSpan :=
  match x.view with
  | .finite s m e =>
    let n := Binary.divideHalfEven (m * 2 ^ e.toNat * 1000000000) (2 ^ (-e).toNat)
    ofNanos? (if s then -(n : Int) else n)
  | _ => none

end TimeSpan

namespace DateTime

theorem holds_tdiv {n : Int} (low : -1000000000000000000000 ≤ n)
    (high : n ≤ 1000000000000000000000) : IntKind.int64.Holds (n.tdiv nanosPerSecond) := by
  have bounds : -1000000000000 ≤ n.tdiv nanosPerSecond ∧ n.tdiv nanosPerSecond ≤ 1000000000000 := by
    unfold nanosPerSecond
    rcases Int.le_total 0 n with sign | sign
    · rw [Int.tdiv_eq_ediv_of_nonneg sign]; omega
    · obtain ⟨m, rfl⟩ : ∃ m : Int, n = -m := ⟨-n, by omega⟩
      rw [Int.neg_tdiv, Int.tdiv_eq_ediv_of_nonneg (by omega)]; omega
  have least : IntKind.int64.least = -9223372036854775808 := by decide
  have greatest : IntKind.int64.greatest = 9223372036854775807 := by decide
  exact ⟨by omega, by omega⟩

theorem least_bound : -400000000000000000000 ≤ least := by decide

theorem greatest_bound : greatest ≤ 400000000000000000000 := by decide

/-- The time from `u` to `t`. -/
def since (t u : DateTime) : TimeSpan where
  nanos := t.nanos - u.nanos
  holds := by
    have := t.low; have := t.high; have := u.low; have := u.high
    have := least_bound; have := greatest_bound
    exact holds_tdiv (by omega) (by omega)

/-- The point later by a length of time, when it is on the calendar. -/
def add? (t : DateTime) (d : TimeSpan) : Option DateTime := ofNanos? (t.nanos + d.nanos)

/-- The point earlier by a length of time, when it is on the calendar. -/
def sub? (t : DateTime) (d : TimeSpan) : Option DateTime := ofNanos? (t.nanos - d.nanos)

end DateTime

end RowQuery
