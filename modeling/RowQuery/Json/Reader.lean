import RowQuery.Json
import RowQuery.Text.Reader

/-!
Reading of JSON. Containers may be nested to a fixed depth. A fraction is read as its digits, as many as
64 bits hold, taken as a binary number and then multiplied or divided by one power of ten, so each of
these two steps rounds.
-/

namespace RowQuery.Json

open Reader

/-- Blank space between the parts of a value. -/
def blank : Reader Unit := do
  discard <| takeWhile fun c => c == ' ' || c == '\n' || c == '\t' || c == '\r'

/-- The greatest number that digits are held in. -/
def digitsLimit : Nat := 2 ^ 64 - 1

/-- Holds more digits after a number, up to the first that does not fit, and says how many were held. -/
def hold (n : Nat) : List Char → Nat × Nat
  | [] => (n, 0)
  | c :: cs =>
    let longer := 10 * n + Digits.digit c
    if longer ≤ digitsLimit then
      let (m, count) := hold longer cs
      (m, count + 1)
    else (n, 0)

/-- The greatest power of ten that a number is multiplied or divided by at once. -/
def maxPower : Nat := 308

/-- A power of ten as a binary number. -/
def powerOfTen (e : Nat) : Double := Binary.ofDecimal false 1 e

/-- A number times a power of ten, in so many divisions at most; none if it is too large. -/
def scale? (x : Double) : Nat → Int → Option Double
  | 0, _ => some x
  | n + 1, e =>
    if e.natAbs ≤ maxPower then
      if 0 ≤ e then
        let y := x.mul (powerOfTen e.natAbs)
        match y.view with
        | .infinite _ => none
        | _ => some y
      else some (x.div (powerOfTen e.natAbs))
    else if x.same (.zero false) then some x
    else if 0 ≤ e then none
    else scale? (x.div (powerOfTen maxPower)) n (e + maxPower)

/-- The fraction with held digits and a power of ten. -/
def fraction? (negative : Bool) (digits : Nat) (e : Int) : Option Json :=
  (scale? (.ofInt digits) 4 e).map fun x => .float (if negative then x.neg else x)

/-- The integer with held digits; a negative one that 64 bits do not hold, or a negative zero, is a
fraction. -/
def integer (negative : Bool) (digits : Nat) : Json :=
  if !negative then .int digits
  else if digits = 0 ∨ 2 ^ 63 < digits then .float (Binary.ofInt digits).neg
  else .int (-(digits : Int))

/-- Digits, at least one. -/
def someDigits : Reader (List Char) := do
  let ds ← takeWhile Char.isDigit
  if ds.isEmpty then fail else return ds

/-- The digits before the point; a leading zero stands alone. -/
def wholeDigits : Reader (List Char) := do
  let ds ← someDigits
  if ds.head? = some '0' ∧ ds.length ≠ 1 then fail else return ds

/-- The exponent, if there is one. -/
def exponent? : Reader (Option Int) := do
  match ← peek? with
  | some 'e' | some 'E' =>
    discard next
    let negative ← taken '-'
    if !negative then discard (taken '+')
    let n := Digits.value (← someDigits)
    return some (if negative then -(n : Int) else n)
  | _ => return none

/-- A number. -/
def number : Reader Json := do
  let negative ← taken '-'
  let whole ← wholeDigits
  let (digits, held) := hold 0 whole
  let excess := whole.length - held
  let point ← taken '.'
  let part ← if point then someDigits else pure []
  let (digits, places) := hold digits part
  let e ← exponent?
  if !point && e.isNone && excess = 0 then return integer negative digits
  ofOption (fraction? negative digits (excess - places + e.getD 0))

/-- The value of a digit of base sixteen. -/
def hexValue? (c : Char) : Option Nat :=
  if c.isDigit then some (c.toNat - 48)
  else if 'a' ≤ c ∧ c ≤ 'f' then some (c.toNat - 87)
  else if 'A' ≤ c ∧ c ≤ 'F' then some (c.toNat - 55)
  else none

/-- So many digits of base sixteen. -/
def hexNumber : Nat → Nat → Reader Nat
  | 0, n => return n
  | k + 1, n => do hexNumber k (16 * n + (← ofOption (hexValue? (← next))))

/-- The character with a number, if there is one. -/
def charOf (n : Nat) : Reader Char := if n.isValidChar then return Char.ofNat n else fail

/-- A character given by its number in sixteen bits, or by two halves of it. -/
def unicodeEscape : Reader Char := do
  let n ← hexNumber 4 0
  if 0xD800 ≤ n ∧ n < 0xDC00 then
    expectAll ['\\', 'u']
    let m ← hexNumber 4 0
    if 0xDC00 ≤ m ∧ m < 0xE000 then charOf (0x10000 + 0x400 * (n - 0xD800) + (m - 0xDC00)) else fail
  else charOf n

/-- The character after a backslash. -/
def escape : Reader Char := do
  match ← next with
  | '"' => return '"'
  | '\\' => return '\\'
  | '/' => return '/'
  | 'b' => return '\x08'
  | 'f' => return '\x0c'
  | 'n' => return '\n'
  | 'r' => return '\r'
  | 't' => return '\t'
  | 'u' => unicodeEscape
  | _ => fail

/-- A text in quotes. -/
def quotedText : Reader String := do
  expect '"'
  let cs ← repeatStep (fun (read : List Char) => do
    match ← peek? with
    | some '"' => return none
    | some '\\' =>
      discard next
      return some ((← escape) :: read)
    | some c =>
      discard next
      if c.toNat < 32 then fail else return some (c :: read)
    | none => fail) []
  expect '"'
  return String.ofList cs.reverse

/-- Parts between brackets with commas between them. -/
def list {α : Type} (opening closing : Char) (part : Reader α) : Reader (List α) := do
  expect opening
  blank
  if ← taken closing then return []
  let first ← part
  blank
  let parts ← repeatStep (fun (read : List α) => do
    if ← taken ',' then
      blank
      let p ← part
      blank
      return some (p :: read)
    return none) [first]
  expect closing
  return parts.reverse

/-- A value that is no container. -/
def scalar (c : Char) : Reader Json := do
  match c with
  | 'n' => expectAll "null".toList; return .null
  | 't' => expectAll "true".toList; return .bool true
  | 'f' => expectAll "false".toList; return .bool false
  | '"' => return .string (← quotedText)
  | _ => number

/-- A value in which containers are nested at most so deep. -/
def value : Nat → Reader Json
  | 0 => do
    blank
    scalar ((← peek?).getD ' ')
  | depth + 1 => do
    blank
    match ← peek? with
    | some '[' => return .array (← list '[' ']' (value depth))
    | some '\x7b' =>
      return .ofFields (← list '\x7b' '\x7d' do
        let name ← quotedText
        blank
        expect ':'
        return (name, ← value depth))
    | c => scalar (c.getD ' ')

/-- The depth to which containers may be nested. -/
def maxDepth : Nat := 127

/-- Reads a JSON text. -/
def parse? (text : String) : Option Json :=
  whole? (do
    let v ← value maxDepth
    blank
    return v) text

end RowQuery.Json
