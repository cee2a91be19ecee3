import RowQuery.Binary

/-!
Decimal numbers of 96 bits: a sign, a mantissa below `2 ^ 96` and a scale of at most 28 decimal
places. The scale belongs to the number, so `1.50` and `1.5` are equal and print differently. A result
whose mantissa would be too long gives up places, rounding a half to the even neighbour, and is an
overflow when no places are left to give up.
-/

namespace RowQuery

/-- The number of mantissas. -/
def Decimal.limit : Nat := 2 ^ 96

/-- The greatest scale. -/
def Decimal.maxScale : Nat := 28

/-- The number `± mantissa / 10 ^ scale`. -/
structure Decimal where
  negative : Bool
  mantissa : Nat
  scale : Nat
  mantissa_lt : mantissa < Decimal.limit
  scale_le : scale ≤ Decimal.maxScale
deriving DecidableEq

namespace Decimal

/-- The number with the given parts, when they are in range. -/
def ofParts? (negative : Bool) (mantissa scale : Nat) : Option Decimal :=
  if h : mantissa < limit ∧ scale ≤ maxScale then some ⟨negative, mantissa, scale, h.1, h.2⟩ else none

/-- The number with the given parts, when they are in range; a zero has no sign. -/
def signed? (negative : Bool) (mantissa scale : Nat) : Option Decimal :=
  ofParts? (negative && mantissa != 0) mantissa scale

/-- Zero without places. -/
def zero : Decimal := ⟨false, 0, 0, by decide, by decide⟩

/-- An integer without places, when its magnitude is in range. -/
def ofInt? (n : Int) : Option Decimal := signed? (n < 0) n.natAbs 0

instance : Inhabited Decimal := ⟨zero⟩

def isZero (d : Decimal) : Bool := d.mantissa == 0

/-- The mantissa with the sign. -/
def signedMantissa (d : Decimal) : Int := if d.negative then -(d.mantissa : Int) else d.mantissa

/-- The integer toward zero. -/
def truncateInt (d : Decimal) : Int :=
  let n : Nat := d.mantissa / 10 ^ d.scale
  if d.negative then -(n : Int) else n

/-- The mantissa of the same number with `scale` places, where that is no fewer. -/
def rescaled (d : Decimal) (scale : Nat) : Int := d.signedMantissa * 10 ^ (scale - d.scale)

/-- The order of the numbers; scales do not matter. -/
def compare (a b : Decimal) : Ordering :=
  Ord.compare (a.rescaled (max a.scale b.scale)) (b.rescaled (max a.scale b.scale))

/-- The number `± m / 10 ^ s` with as many places as fit, at most `s`, the last one rounded half to
even; none when even the integer part does not fit. -/
def fit? (negative : Bool) (m s : Nat) : Option Decimal :=
  let places := min s maxScale
  (List.range (places + 1)).findSome? fun dropped =>
    let scale := places - dropped
    signed? negative (Binary.divideHalfEven m (10 ^ (s - scale))) scale

/-- The number with its sign turned, zero included. -/
def neg (d : Decimal) : Decimal := { d with negative := !d.negative }

def abs (d : Decimal) : Decimal := { d with negative := false }

/-- The sum. A zero operand leaves the other one as it is, scale included. -/
def add? (a b : Decimal) : Option Decimal :=
  if a.isZero then some b
  else if b.isZero then some a
  else
    let s := max a.scale b.scale
    let sum := a.rescaled s + b.rescaled s
    fit? (sum < 0) sum.natAbs s

/-- The difference, as the sum with the opposite; a zero subtrahend keeps its sign. -/
def sub? (a b : Decimal) : Option Decimal := add? a (if b.isZero then b else b.neg)

/-- The product. Two short mantissas with more than 47 places between them give zero. -/
def mul? (a b : Decimal) : Option Decimal :=
  if a.isZero || b.isZero then some zero
  else if a.mantissa < 2 ^ 32 && b.mantissa < 2 ^ 32 && 47 < a.scale + b.scale then some zero
  else fit? (a.negative != b.negative) (a.mantissa * b.mantissa) (a.scale + b.scale)

/-- One digit less, a half rounded to even; what is left below the digits breaks the tie. -/
def shorten (q : Nat) (scale : Int) (sticky : Bool) : Option (Nat × Int) :=
  if scale = 0 then none
  else
    let up := 5 < q % 10 || (q % 10 == 5 && (sticky || q / 10 % 2 == 1))
    some (if up then q / 10 + 1 else q / 10, scale - 1)

/-- The most places, at most nine, by which a quotient can be extended. -/
def extension (q : Nat) (scale : Int) : Nat :=
  if maxScale ≤ scale then 0
  else
    let fits (p : Nat) : Bool := q * 10 ^ p < limit && (p : Int) ≤ maxScale - scale
    ((List.range 10).reverse.find? fits).getD 0

/-- Long division: the quotient `q` at `scale` places with remainder `r` is extended until nothing
remains or no more places fit. The flag tells whether the division was inexact at some step. -/
def divideFrom (d : Nat) : Nat → Nat → Nat → Int → Bool → Option (Nat × Int × Bool)
  | 0, q, _, scale, inexact => some (q, scale, inexact)
  | fuel + 1, q, r, scale, inexact =>
    if r = 0 && 0 ≤ scale then some (q, scale, inexact)
    else
      let p := if r = 0 then min 9 (-scale).toNat else extension q scale
      if r ≠ 0 && scale < maxScale && p < 9 && p + scale < 0 then none
      else if r ≠ 0 && p = 0 then
        let rounded := Binary.divideHalfEven (q * d + r) d
        if rounded < limit then some (rounded, scale, true)
        else (shorten rounded scale false).map fun (q, scale) => (q, scale, true)
      else if limit ≤ q * 10 ^ p then none
      else
        let q := q * 10 ^ p + r * 10 ^ p / d
        let rest := r * 10 ^ p % d
        if limit ≤ q then
          (shorten q (scale + p) (rest ≠ 0)).map fun (q, scale) => (q, scale, inexact || r ≠ 0)
        else divideFrom d fuel q rest (scale + p) (inexact || r ≠ 0)

/-- Eight zeros at a time dropped from the end of a quotient. -/
def dropEights : Nat → Nat → Nat → Nat × Nat
  | 0, q, scale => (q, scale)
  | fuel + 1, q, scale =>
    if q % 2 ^ 32 == 0 && 8 ≤ scale && q % 10 ^ 8 == 0 then dropEights fuel (q / 10 ^ 8) (scale - 8)
    else (q, scale)

/-- A given number of zeros dropped from the end of a quotient, if it has them. -/
def dropOnce (count : Nat) : Nat × Nat → Nat × Nat
  | (q, scale) =>
    if count ≤ scale && q % 10 ^ count == 0 then (q / 10 ^ count, scale - count) else (q, scale)

/-- The quotient by a divisor other than zero. An inexact quotient loses trailing zeros, eight, then
four, two and one at a time. -/
def div? (a b : Decimal) : Option Decimal :=
  if a.isZero then some zero
  else do
    let (q, scale, inexact) ← divideFrom b.mantissa 64 (a.mantissa / b.mantissa)
      (a.mantissa % b.mantissa) (a.scale - b.scale) false
    let (q, scale) :=
      if inexact then dropOnce 1 (dropOnce 2 (dropOnce 4 (dropEights 4 q scale.toNat)))
      else (q, scale.toNat)
    signed? (a.negative != b.negative) q scale

/-- The remainder of the truncated quotient, with the sign of the dividend. A dividend smaller than
the divisor is its own remainder; equal magnitudes leave zero without places. -/
def rem? (a b : Decimal) : Option Decimal :=
  if a.isZero then some zero
  else
    match compare a.abs b.abs with
    | .eq => some zero
    | .lt => some a
    | .gt =>
      let s := max a.scale b.scale
      let r := (a.mantissa * 10 ^ (s - a.scale)) % (b.mantissa * 10 ^ (s - b.scale))
      signed? a.negative r s

/-- The number with no more than `places` places, a half rounded to even. -/
def round (d : Decimal) (places : Nat) : Decimal :=
  if d.scale ≤ places then d
  else
    let m := Binary.divideHalfEven d.mantissa (10 ^ (d.scale - places))
    (ofParts? (d.negative && (d.isZero || m != 0)) m places).getD d

/-- The integer part, which keeps the sign even when it is zero. -/
def truncate (d : Decimal) : Decimal where
  negative := d.negative
  mantissa := d.mantissa / 10 ^ d.scale
  scale := 0
  mantissa_lt := Nat.lt_of_le_of_lt (Nat.div_le_self _ _) d.mantissa_lt
  scale_le := Nat.zero_le _

/-- Whether the number has a fractional part other than zero. -/
def hasFraction (d : Decimal) : Bool := d.mantissa % 10 ^ d.scale != 0

def one : Decimal := ⟨false, 1, 0, by decide, by decide⟩

/-- The greatest integer not above the number. -/
def floor (d : Decimal) : Decimal :=
  if d.negative && d.hasFraction then (sub? d.truncate one).getD d.truncate else d.truncate

/-- The least integer not below the number; between minus one and zero it is the negative zero. -/
def ceiling (d : Decimal) : Decimal :=
  if !d.negative && d.hasFraction then (add? d.truncate one).getD d.truncate else d.truncate

/-- The trailing zeros of the places dropped. -/
def normalize (d : Decimal) : Decimal :=
  if d.isZero then zero
  else
    let kept := (List.range (d.scale + 1)).find? fun s => d.mantissa % 10 ^ (d.scale - s) == 0
    let s := kept.getD d.scale
    (ofParts? d.negative (d.mantissa / 10 ^ (d.scale - s)) s).getD d

end Decimal

end RowQuery
