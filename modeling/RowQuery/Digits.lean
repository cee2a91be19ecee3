/-!
Runs of decimal digits: their value, and the numbers written with them. A digit here is one of the
ten ASCII digits.
-/

namespace RowQuery.Digits

/-- The number denoted by one digit. -/
def digit (c : Char) : Nat := c.toNat - 48

/-- The number a run of digits denotes when it continues the number `start`. -/
def valueFrom (start : Nat) (cs : List Char) : Nat :=
  cs.foldl (fun n c => 10 * n + digit c) start

/-- The number a run of digits denotes. -/
def value (cs : List Char) : Nat := valueFrom 0 cs

/-- Reads a non-empty run of digits and nothing else. -/
def nat? (cs : List Char) : Option Nat :=
  if cs.isEmpty || !cs.all Char.isDigit then none else some (value cs)

/-- Reads an integer: digits after at most one sign. -/
def int? : List Char → Option Int
  | '+' :: cs => (nat? cs).map Int.ofNat
  | '-' :: cs => (nat? cs).map fun n => -(n : Int)
  | cs => (nat? cs).map Int.ofNat

/-- The digits of a number, filled up with zeros on the left to a least width. -/
def padded (width n : Nat) : List Char :=
  let ds := Nat.toDigits 10 n
  List.replicate (width - ds.length) '0' ++ ds

/-- The leading digits of a text and what follows them. -/
def span (cs : List Char) : List Char × List Char :=
  (cs.takeWhile Char.isDigit, cs.dropWhile Char.isDigit)

end RowQuery.Digits
