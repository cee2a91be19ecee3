import RowQuery.Binary.Shortest
import RowQuery.Digits

/-!
Binary numbers as text. Two layouts of the shortest digits are used: plain positional notation
without an exponent, and the notation of data files, which always shows a number to be fractional and
turns to an exponent for very large and very small numbers. Any decimal notation can be read, and the
result is the nearest number of the format.
-/

namespace RowQuery.Binary

variable {f : Format}

/-- Digits with a decimal exponent, written out positionally; an integer has no point. -/
def positional (s : Shortest) : List Char :=
  let ds := Nat.toDigits 10 s.digits
  if 0 ≤ s.exponent then ds ++ List.replicate s.exponent.toNat '0'
  else
    let places := (-s.exponent).toNat
    if places < ds.length then ds.take (ds.length - places) ++ '.' :: ds.drop (ds.length - places)
    else '0' :: '.' :: List.replicate (places - ds.length) '0' ++ ds

/-- Positional notation with the shortest digits, never an exponent; the larger of two equally near
decimals is written. -/
def plainText (x : Binary f) : String :=
  match x.view with
  | .nan _ => "NaN"
  | .infinite s => if s then "-inf" else "inf"
  | .finite s m e =>
    let body := if m = 0 then ['0'] else positional (shortest .larger f m e)
    String.ofList (if s then '-' :: body else body)

/-- One digit, the others after a point, and the decimal exponent of the first with its sign. -/
def scientific (s : Shortest) (place : Int) : List Char :=
  let ds := Nat.toDigits 10 s.digits
  let point := if ds.length = 1 then ds else ds.take 1 ++ '.' :: ds.drop 1
  let sign := if place < 0 then '-' else '+'
  point ++ 'e' :: sign :: Nat.toDigits 10 place.natAbs

/-- The notation of data files: positional where the first digit stands between the fifth decimal
place and the sixteenth digit of the integer part, with `.0` added to integers, and an exponent
otherwise; the even one of two equally near decimals is written. Only finite numbers have one. -/
def dataText? (x : Binary f) : Option String :=
  match x.view with
  | .finite s m e =>
    let body :=
      if m = 0 then ['0', '.', '0']
      else
        let short := shortest .even f m e
        let place : Int := (Nat.toDigits 10 short.digits).length + short.exponent - 1
        if -5 ≤ place && place ≤ 15 then
          positional short ++ if 0 ≤ short.exponent then ['.', '0'] else []
        else scientific short place
    some (String.ofList (if s then '-' :: body else body))
  | _ => none

/-- The nearest number to `± digits · 10 ^ e`. A place so far out that the number is certainly zero
or infinite is not computed. -/
def ofDecimal (negative : Bool) (digits : Nat) (e : Int) : Binary f :=
  let place := (Nat.toDigits 10 digits).length + e
  if digits = 0 || place < -400 then zero negative
  else if 400 < place then infinity negative
  else nearest negative (digits * 10 ^ e.toNat) (10 ^ (-e).toNat)

/-- Reads an exponent part, or its absence. -/
def exponentPart? : List Char → Option Int
  | [] => some 0
  | c :: cs => if c == 'e' || c == 'E' then Digits.int? cs else none

/-- Reads a decimal without a sign: digits with at most one point among or around them, then an
optional exponent. -/
def unsignedDecimal? (cs : List Char) : Option (Nat × Int) :=
  let (whole, rest) := Digits.span cs
  let (part, rest) := match rest with
    | '.' :: after => Digits.span after
    | _ => ([], rest)
  if whole.isEmpty && part.isEmpty then none
  else (exponentPart? rest).map fun e => (Digits.value (whole ++ part), e - part.length)

/-- Reads a number without a sign; infinities and the absence of a number are spelled in words of
any case. -/
def unsigned? (negative : Bool) (cs : List Char) : Option (Binary f) :=
  let word := String.ofList (cs.map Char.toLower)
  if word == "inf" || word == "infinity" then some (infinity negative)
  else if word == "nan" then some (nan negative)
  else (unsignedDecimal? cs).map fun (digits, e) => ofDecimal negative digits e

/-- Reads a number in decimal notation. -/
def read? (s : String) : Option (Binary f) :=
  match s.toList with
  | '+' :: cs => unsigned? false cs
  | '-' :: cs => unsigned? true cs
  | cs => unsigned? false cs

end RowQuery.Binary
