import RowQuery.Binary

/-!
The shortest decimal that denotes a binary number: the fewest digits whose value rounds to the
number, and among those of that length the nearest. For each length the only candidates are the two
neighbours of the number on the decimal grid of that length; which of two equally near ones is taken is
for the notation to say.
-/

namespace RowQuery.Binary

/-- Which of two equally near decimals is taken: the larger one, or the one whose last digit is even. -/
inductive Tie where
  | larger
  | even
deriving DecidableEq

/-- Whether the larger of two neighbours is taken, given the smaller one and the order of the number and
the middle between them. -/
def Tie.takesLarger (tie : Tie) (smaller : Nat) : Ordering → Bool
  | .lt => false
  | .gt => true
  | .eq => tie = .larger || smaller % 2 = 1

/-- A decimal `digits · 10 ^ exponent`. -/
structure Shortest where
  digits : Nat
  exponent : Int
deriving DecidableEq, Repr

/-- Whether `n / d < 10 ^ p`. -/
def belowPower (n d : Nat) (p : Int) : Bool := n * 10 ^ (-p).toNat < d * 10 ^ p.toNat

/-- The least `p` with `n / d < 10 ^ p`, searched near the estimate that the lengths give. -/
def decimalPlace (n d : Nat) : Int :=
  let guess := ((n.log2 : Int) - d.log2) * 30103 / 100000
  ([guess - 1, guess, guess + 1].find? (belowPower n d)).getD (guess + 2)

/-- Trailing zeros of the digits moved into the exponent. -/
def dropZeros : Nat → Nat → Int → Shortest
  | 0, digits, e => ⟨digits, e⟩
  | fuel + 1, digits, e =>
    if digits % 10 = 0 then dropZeros fuel (digits / 10) (e + 1) else ⟨digits, e⟩

/-- The candidate of a given length for the number `n / d`, when one lies between the bounds; the
bounds are `low / d` and `high / d`, and belong to the interval when `closed` is set. -/
def candidate? (tie : Tie) (n d low high : Nat) (closed : Bool) (place : Int) (length : Nat) :
    Option Shortest :=
  let e := place - length
  let up := 10 ^ (-e).toNat
  let down := d * 10 ^ e.toNat
  let floor := n * up / down
  let inside (c : Nat) : Bool :=
    if closed then low * up ≤ c * down && c * down ≤ high * up
    else low * up < c * down && c * down < high * up
  match inside floor, inside (floor + 1) with
  | true, true =>
    let position := Ord.compare (2 * (n * up)) ((2 * floor + 1) * down)
    some ⟨if tie.takesLarger floor position then floor + 1 else floor, e⟩
  | true, false => some ⟨floor, e⟩
  | false, true => some ⟨floor + 1, e⟩
  | false, false => none

/-- The shortest decimal of `m · 2 ^ e`, a positive number of the format `f`. The numbers that round
to it reach half way to its neighbours, and the lower neighbour of a power of two is nearer. -/
def shortest (tie : Tie) (f : Format) (m : Nat) (e : Int) : Shortest :=
  let below := if m = 2 ^ f.fraction && f.lowest < e then 1 else 2
  let up := 2 ^ (e - 2).toNat
  let d := 2 ^ (2 - e).toNat
  let n := 4 * m * up
  let place := decimalPlace n d
  let found := (List.range 18).findSome? fun length =>
    if length = 0 then none
    else candidate? tie n d ((4 * m - below) * up) ((4 * m + 2) * up) (m % 2 == 0) place length
  let ⟨digits, exponent⟩ := found.getD ⟨0, 0⟩
  dropZeros 18 digits exponent

end RowQuery.Binary
