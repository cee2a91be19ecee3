import RowQuery.Decimal

/-!
Conversions between decimal and binary numbers. From binary, the power of two is traded step by step
for a power of ten while the mantissa stays below `2 ^ 96`, and places beyond the precision of a
64-bit number are rounded away. To binary, the integer and the fractional part are converted apart,
added, and the sum is rounded to the places of the decimal.
-/

namespace RowQuery.Decimal

/-- Halvings traded for divisions by ten: `steps` factors of one half are left. -/
def tradeHalves : Nat → Nat → Int → Nat × Int
  | 0, m, e => (m, e)
  | steps + 1, m, e =>
    if m % 2 = 0 then tradeHalves steps (m / 2) (e + 1)
    else if m * 5 < limit then tradeHalves steps (m * 5) e
    else tradeHalves steps (m / 2) (e + 1)

/-- Doublings traded for multiplications by ten: `steps` factors of two are left. -/
def tradeDoubles : Nat → Nat → Int → Option (Nat × Int)
  | 0, m, e => some (m, e)
  | steps + 1, m, e =>
    if m < 2 ^ 95 then tradeDoubles steps (m * 2) (e - 1)
    else if (steps + 1 : Int) < e * 2 then none
    else tradeDoubles steps (m / 5) e

/-- A mantissa without its last digit, which rounds it up from five on. -/
def dropDigit (m : Nat) : Nat := if 5 ≤ m % 10 then m / 10 + 1 else m / 10

/-- Drops digits while there are more than 28 places; a mantissa that vanishes is plain zero. -/
def dropExcess : Nat → Nat → Int → Nat × Int
  | 0, m, e => (m, e)
  | fuel + 1, m, e =>
    if e < -28 then
      if m / 10 = 0 then (0, 0) else dropExcess fuel (dropDigit m) (e + 1)
    else (m, e)

/-- Drops digits of a mantissa that is longer than the fraction of a 64-bit number. -/
def dropImprecise : Nat → Nat → Int → Nat × Int
  | 0, m, e => (m, e)
  | fuel + 1, m, e =>
    if e < 0 && 2 ^ 52 ≤ m then dropImprecise fuel (dropDigit m) (e + 1) else (m, e)

/-- Drops trailing zeros of the places. -/
def dropTrailing : Nat → Nat → Int → Nat × Int
  | 0, m, e => (m, e)
  | fuel + 1, m, e =>
    if e < 0 && m % 10 = 0 then dropTrailing fuel (m / 10) (e + 1) else (m, e)

/-- The decimal for a 64-bit binary number; none for infinities and for what is no number. -/
def ofDouble? (x : Double) : Option Decimal :=
  match x.view with
  | .finite s m e =>
    if m = 0 then ofParts? s 0 0
    else do
      let (m, e10) ← if e ≤ 0 then pure (tradeHalves e.natAbs m e) else tradeDoubles e.natAbs m e
      if 0 < e10 then
        let m := m * 10 ^ e10.toNat
        ofParts? s m 0
      else
        let (m, e10) := dropExcess e10.natAbs m e10
        let (m, e10) := dropImprecise e10.natAbs m e10
        let (m, e10) := dropTrailing e10.natAbs m e10
        ofParts? s m e10.natAbs
  | _ => none

/-- The 64-bit binary number for a decimal. -/
def toDouble (d : Decimal) : Double :=
  if d.scale = 0 then Binary.ofInt d.signedMantissa
  else
    let power := 10 ^ d.scale
    let whole : Double := Binary.ofInt (d.mantissa / power : Nat)
    let part := Binary.div (Binary.ofInt (d.mantissa % power : Nat)) (Binary.ofInt power : Double)
    let magnitude :=
      if part.magnitude = 0 then whole
      else
        let factor : Double := Binary.ofInt power
        ((((whole.add part).mul factor).toIntegral .halfAway).div factor)
    if d.negative then magnitude.neg else magnitude

end RowQuery.Decimal
