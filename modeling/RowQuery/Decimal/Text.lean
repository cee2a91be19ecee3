import RowQuery.Decimal
import RowQuery.Digits

/-!
Decimal numbers as text. Writing shows all places. Reading takes a sign, digits with one point
anywhere and underscores after the first digit; a number with more places than fit is rounded by the
first digit that does not fit, and only digits and underscores may follow that digit.
-/

namespace RowQuery.Decimal

/-- The digits of the mantissa with the point set by the scale. -/
def text (d : Decimal) : String :=
  let ds := Digits.padded (d.scale + 1) d.mantissa
  let whole := ds.take (ds.length - d.scale)
  let part := ds.drop (ds.length - d.scale)
  let body := if part.isEmpty then whole else whole ++ '.' :: part
  String.ofList (if d.negative then '-' :: body else body)

/-- A reading under way: the sign, whether the point and a digit were seen, mantissa and scale. -/
structure Reading where
  negative : Bool
  point : Bool
  started : Bool
  mantissa : Nat
  scale : Nat

def Reading.finish (r : Reading) : Option Decimal :=
  if r.started then signed? r.negative r.mantissa r.scale else none

/-- Rounds a reading by the digit after its last place, a half away from zero. A mantissa that grows
too long gives up a place. -/
def Reading.roundBy (r : Reading) (digit : Nat) : Option Decimal :=
  if digit < 5 then r.finish
  else if r.mantissa + 1 < limit then signed? r.negative (r.mantissa + 1) r.scale
  else if r.scale = 0 then none
  else signed? r.negative ((r.mantissa + 5) / 10) (r.scale - 1)

/-- Whether the digits before the last one, with any further digit, stay well within 64 bits. -/
def Reading.isShort (r : Reading) : Bool := r.mantissa / 10 < (2 ^ 64 - 1) / 10 - 255

/-- Ends a reading that has its last place. The next digit rounds it, and underscores before that digit
are passed over. A point there stands for a zero, and so does an underscore after a short mantissa. -/
def Reading.close (r : Reading) (rest : List Char) : Option Decimal :=
  let asZero := rest.head? == some '.' || (r.isShort && rest.head? == some '_')
  let digits := if asZero then '0' :: rest.tail else rest.dropWhile (· == '_')
  if digits.all fun c => c.isDigit || c == '_' then r.roundBy ((digits.head?.map Digits.digit).getD 0)
  else none

def Reading.go (r : Reading) : List Char → Option Decimal
  | [] => r.finish
  | c :: cs =>
    if r.point && r.scale = maxScale then r.close (c :: cs)
    else if c.isDigit then
      let m := 10 * r.mantissa + Digits.digit c
      if m < limit then
        let scale := if r.point then r.scale + 1 else 0
        Reading.go { r with started := true, mantissa := m, scale } cs
      else if r.point then r.close (c :: cs)
      else none
    else if c == '.' && !r.point then Reading.go { r with point := true } cs
    else if c == '_' && r.started then Reading.go r cs
    else none

/-- Reads a number in positional notation. -/
def read? (s : String) : Option Decimal :=
  match s.toList with
  | '-' :: cs => Reading.go ⟨true, false, false, 0, 0⟩ cs
  | '+' :: cs => Reading.go ⟨false, false, false, 0, 0⟩ cs
  | cs => Reading.go ⟨false, false, false, 0, 0⟩ cs

/-- Reads an exponent: digits after an optional plus sign, below `2 ^ 32`. -/
def exponent? (cs : List Char) : Option Nat :=
  let digits := if cs.head? = some '+' then cs.drop 1 else cs
  (Digits.nat? digits).filter (· < 2 ^ 32)

/-- The number `± m / 10 ^ s` with at most 28 places, a half rounded away from zero. The sign stays
when no digit is left. -/
def cut? (negative : Bool) (m s : Nat) : Option Decimal :=
  if s ≤ maxScale then ofParts? negative m s
  else
    let unit := 10 ^ (s - maxScale)
    ofParts? negative ((m + unit / 2) / unit) maxScale

/-- Reads a number in scientific notation, with an exponent from -28 to 28. A negative
exponent adds places, a positive one takes them away, and beyond the last place it lengthens the
mantissa. -/
def readScientific? (s : String) : Option Decimal :=
  match s.toList.span fun c => c != 'e' && c != 'E' with
  | (_, []) => none
  | (base, _ :: after) => do
    let d ← read? (String.ofList base)
    if after.head? = some '-' then
      let e ← exponent? (after.drop 1)
      if maxScale < e then none else cut? d.negative d.mantissa (d.scale + e)
    else
      let e ← exponent? after
      if e ≤ d.scale then ofParts? d.negative d.mantissa (d.scale - e)
      else if maxScale < e then none
      else (fit? d.negative (d.mantissa * 10 ^ e) d.scale).map normalize

/-- Reads a number in positional or else in scientific notation. -/
def readAny? (s : String) : Option Decimal := (read? s).or (readScientific? s)

end RowQuery.Decimal
