import RowQuery.Power

/-!
Binary floating-point numbers as bit patterns. A pattern stands for a signed infinity, for no number,
or for `± m · 2 ^ e`; a value that a format cannot hold is replaced by the nearest that it can, the
even one of two. Every operation is exact integer arithmetic followed by one rounding. A pattern that
is no number keeps a sign, because the total order of patterns looks at it.
-/

namespace RowQuery

/-- A format: the number of stored fraction bits and of exponent bits. -/
structure Format where
  fraction : Nat
  exponent : Nat
deriving DecidableEq

namespace Format

def single : Format := ⟨23, 8⟩

def double : Format := ⟨52, 11⟩

/-- The length of a pattern: sign, exponent and fraction. -/
def width (f : Format) : Nat := 1 + f.exponent + f.fraction

/-- The exponent of the last fraction bit of the smallest numbers. -/
def lowest (f : Format) : Int := 2 - 2 ^ (f.exponent - 1) - f.fraction

/-- The magnitude bits of an infinity; larger magnitudes stand for no number. -/
def infinite (f : Format) : Nat := (2 ^ f.exponent - 1) * 2 ^ f.fraction

end Format

/-- A bit pattern of a format. -/
structure Binary (f : Format) where
  bits : BitVec f.width
deriving DecidableEq

/-- What a pattern stands for. -/
inductive Binary.View where
  | nan (negative : Bool)
  | infinite (negative : Bool)
  | finite (negative : Bool) (m : Nat) (e : Int)

/-- Ways to replace a number by an integer. -/
inductive Binary.ToInteger where
  | floor | ceiling | truncate | halfEven | halfAway

namespace Binary

variable {f g : Format}

/-- The pattern with a sign and a magnitude. -/
def ofMagnitude (negative : Bool) (magnitude : Nat) : Binary f :=
  ⟨BitVec.ofNat _ ((if negative then 2 ^ (f.width - 1) else 0) + magnitude)⟩

/-- The sign bit. -/
def negative (x : Binary f) : Bool := 2 ^ (f.width - 1) ≤ x.bits.toNat

/-- The bits other than the sign. -/
def magnitude (x : Binary f) : Nat := x.bits.toNat % 2 ^ (f.width - 1)

/-- No number, with a sign. -/
def nan (negative : Bool) : Binary f := ofMagnitude negative (f.infinite + 2 ^ (f.fraction - 1))

/-- The result of an operation that has none; its sign bit is set. -/
def invalid : Binary f := nan true

def infinity (negative : Bool) : Binary f := ofMagnitude negative f.infinite

def zero (negative : Bool) : Binary f := ofMagnitude negative 0

/-- What a pattern stands for; the exponent field of zero and of the smallest numbers is empty. -/
def view (x : Binary f) : View :=
  let e := x.magnitude / 2 ^ f.fraction
  let m := x.magnitude % 2 ^ f.fraction
  if f.infinite < x.magnitude then .nan x.negative
  else if x.magnitude = f.infinite then .infinite x.negative
  else if e = 0 then .finite x.negative m f.lowest
  else .finite x.negative (m + 2 ^ f.fraction) (f.lowest + (e - 1 : Nat))

def isNan (x : Binary f) : Bool := f.infinite < x.magnitude

/-- The quotient of two numbers, rounded to the nearest integer and in a tie to the even one. -/
def divideHalfEven (n d : Nat) : Nat :=
  let q := n / d
  let r := n % d
  if 2 * r < d then q else if d < 2 * r then q + 1 else q + q % 2

/-- The pattern nearest to `± n / d`, ties to even, for a positive `d`. -/
def nearest (negative : Bool) (n d : Nat) : Binary f :=
  if n = 0 then zero negative
  else
    let guess : Int := n.log2 - d.log2 - f.fraction
    let small := n * 2 ^ (-guess).toNat < 2 ^ f.fraction * (d * 2 ^ guess.toNat)
    let e := max f.lowest (if small then guess - 1 else guess)
    let m := divideHalfEven (n * 2 ^ (-e).toNat) (d * 2 ^ e.toNat)
    ofMagnitude negative (min f.infinite ((e - f.lowest).toNat * 2 ^ f.fraction + m))

/-- The pattern nearest to `± m · 2 ^ e`. -/
def ofDyadic (negative : Bool) (m : Nat) (e : Int) : Binary f :=
  nearest negative (m * 2 ^ e.toNat) (2 ^ (-e).toNat)

/-- The pattern nearest to an integer. -/
def ofInt (n : Int) : Binary f := nearest (n < 0) n.natAbs 1

/-- The same number in another format, or the nearest one. -/
def convert (x : Binary f) : Binary g :=
  match x.view with
  | .nan s => nan s
  | .infinite s => infinity s
  | .finite s m e => ofDyadic s m e

def neg (x : Binary f) : Binary f := ofMagnitude (!x.negative) x.magnitude

def abs (x : Binary f) : Binary f := ofMagnitude false x.magnitude

def signedInt (negative : Bool) (m : Nat) : Int := if negative then -(m : Int) else m

/-- The sum. Opposite numbers add up to the positive zero. -/
def add (x y : Binary f) : Binary f :=
  match x.view, y.view with
  | .nan _, _ => x
  | _, .nan _ => y
  | .infinite s, .infinite t => if s = t then x else invalid
  | .infinite _, _ => x
  | _, .infinite _ => y
  | .finite s m e, .finite t n d =>
    let low := min e d
    let sum := signedInt s (m * 2 ^ (e - low).toNat) + signedInt t (n * 2 ^ (d - low).toNat)
    if sum = 0 then zero (s && t) else ofDyadic (sum < 0) sum.natAbs low

/-- The difference. An operand that is no number keeps its sign. -/
def sub (x y : Binary f) : Binary f :=
  if x.isNan then x else if y.isNan then y else add x y.neg

def mul (x y : Binary f) : Binary f :=
  let s := x.negative != y.negative
  match x.view, y.view with
  | .nan _, _ => x
  | _, .nan _ => y
  | .infinite _, .finite _ n _ => if n = 0 then invalid else infinity s
  | .finite _ m _, .infinite _ => if m = 0 then invalid else infinity s
  | .infinite _, .infinite _ => infinity s
  | .finite _ m e, .finite _ n d => ofDyadic s (m * n) (e + d)

def div (x y : Binary f) : Binary f :=
  let s := x.negative != y.negative
  match x.view, y.view with
  | .nan _, _ => x
  | _, .nan _ => y
  | .infinite _, .infinite _ => invalid
  | .infinite _, .finite _ _ _ => infinity s
  | .finite _ _ _, .infinite _ => zero s
  | .finite _ m e, .finite _ n d =>
    if n = 0 then if m = 0 then invalid else infinity s
    else nearest s (m * 2 ^ (e - d).toNat) (n * 2 ^ (d - e).toNat)

/-- The remainder of the quotient truncated toward zero; it has the sign of the dividend. -/
def rem (x y : Binary f) : Binary f :=
  match x.view, y.view with
  | .nan _, _ => x
  | _, .nan _ => y
  | .infinite _, _ => invalid
  | .finite _ _ _, .infinite _ => x
  | .finite s m e, .finite _ n d =>
    if n = 0 then invalid
    else
      let low := min e d
      ofDyadic s (m * 2 ^ (e - low).toNat % (n * 2 ^ (d - low).toNat)) low

/-- The greatest number below `2 ^ bits` whose square is at most `n`, above a part already found. -/
def squareRootBelow (n : Nat) : Nat → Nat → Nat
  | 0, found => found
  | bits + 1, found =>
    let next := found + 2 ^ bits
    squareRootBelow n bits (if next * next ≤ n then next else found)

/-- The square root, rounded once: the root is found to two bits more than the format keeps, and an
inexact one is marked by half a unit of its last place. -/
def sqrt (x : Binary f) : Binary f :=
  match x.view with
  | .nan _ => x
  | .infinite s => if s then invalid else x
  | .finite s m e =>
    if m = 0 then x
    else if s then invalid
    else
      let shift := 2 * (f.fraction + 2) + (e % 2).toNat
      let n := m * 2 ^ shift
      let root := squareRootBelow n (n.log2 / 2 + 1) 0
      let mark := if root * root = n then 0 else 1
      ofDyadic false (2 * root + mark) ((e - shift) / 2 - 1)

/-- The integer that replaces `± m · 2 ^ e`, without its sign. -/
def integerPart (how : ToInteger) (negative : Bool) (m : Nat) (e : Int) : Nat :=
  let n := m * 2 ^ e.toNat
  let d := 2 ^ (-e).toNat
  match how with
  | .floor => if negative then (n + d - 1) / d else n / d
  | .ceiling => if negative then n / d else (n + d - 1) / d
  | .truncate => n / d
  | .halfEven => divideHalfEven n d
  | .halfAway => (2 * n + d) / (2 * d)

/-- The nearest integer of a kind, as a number of the same format and sign. -/
def toIntegral (how : ToInteger) (x : Binary f) : Binary f :=
  match x.view with
  | .finite s m e => ofDyadic s (integerPart how s m e) 0
  | _ => x

/-- The integer toward zero, for a pattern that stands for a number. -/
def truncate? (x : Binary f) : Option Int :=
  match x.view with
  | .finite s m e => some (signedInt s (integerPart .truncate s m e))
  | _ => none

/-- Equality of numbers: the two zeros are equal, and no number equals nothing. -/
def same (x y : Binary f) : Bool :=
  !x.isNan && !y.isNan && (x.bits == y.bits || (x.magnitude == 0 && y.magnitude == 0))

/-- The place of a pattern in the total order of patterns: negative ones first, larger magnitudes
further from the middle. -/
def rank (x : Binary f) : Int :=
  if x.negative then -(x.magnitude : Int) - 1 else x.magnitude

end Binary

/-- Numbers of 32 bits. -/
abbrev Single := Binary .single

/-- Numbers of 64 bits. -/
abbrev Double := Binary .double

namespace Double

def toFloat (x : Double) : Float := Float.ofBits (UInt64.ofNat x.bits.toNat)

def ofFloat (x : Float) : Double := ⟨BitVec.ofNat _ x.toBits.toNat⟩

/-- Whether a number is an odd integer. -/
def isOdd (x : Double) : Bool :=
  match x.view with
  | .finite _ m e => (m * 2 ^ e.toNat) % 2 ^ (-e).toNat == 0 && (m * 2 ^ e.toNat) / 2 ^ (-e).toNat % 2 == 1
  | _ => false

/-- The power. An operand that is no number decides the sign of a result that is none. -/
def pow (x y : Double) : Double :=
  let p := ofFloat (Float.pow x.toFloat y.toFloat)
  if !p.isNan then p
  else if y.isNan then if x.isNan then x else y
  else if x.isNan then Binary.nan (x.negative && !isOdd y)
  else Binary.invalid

end Double

end RowQuery
