import RowQuery.Calendar
import RowQuery.Digits
import RowQuery.Integer

/-!
The values that are written without quotes: truth values, integers in four bases, floating-point
numbers, dates and times. Underscores may stand between digits.
-/

namespace RowQuery.Toml.Scalar

/-- Splits a text at each occurrence of a character. -/
def splitAt (c : Char) (cs : List Char) : List (List Char) :=
  cs.foldr (fun d parts =>
    if d = c then [] :: parts
    else
      match parts with
      | part :: rest => (d :: part) :: rest
      | [] => [[d]]) [[]]

/-- Digits of some kind with single underscores between them; none if they are not. -/
def digits? (isDigit : Char → Bool) (cs : List Char) : Option (List Char) :=
  let parts := splitAt '_' cs
  if parts.all fun part => !part.isEmpty && part.all isDigit then some parts.flatten else none

/-- A text without the sign in front of it. -/
def unsigned : List Char → List Char
  | '+' :: cs => cs
  | '-' :: cs => cs
  | cs => cs

/-- Digits that do not start with a zero, unless that is all there is. -/
def isWhole (cs : List Char) : Bool :=
  match digits? Char.isDigit cs with
  | some ds => ds.head? != some '0' || ds.length == 1
  | none => false

/-- The value of a digit in a base of at most sixteen. -/
def digitValue (c : Char) : Nat :=
  if c.isDigit then c.toNat - 48 else (c.toLower.toNat - 87)

/-- An integer in a base other than ten that 64 bits hold. -/
def isBased (base : Nat) (cs : List Char) : Bool :=
  match digits? (fun c => (c.isDigit || ('a' ≤ c.toLower && c.toLower ≤ 'f')) && digitValue c < base) cs with
  | some ds => ds.foldl (fun n c => base * n + digitValue c) 0 < 2 ^ 63
  | none => false

/-- An integer in base ten that 64 bits hold. -/
def isDecimal (cs : List Char) : Bool :=
  isWhole (unsigned cs) &&
    match Digits.int? (cs.filter (· != '_')) with
    | some n => decide (IntKind.int64.Holds n)
    | none => false

def isInteger (cs : List Char) : Bool :=
  match cs with
  | '0' :: 'x' :: rest => isBased 16 rest
  | '0' :: 'o' :: rest => isBased 8 rest
  | '0' :: 'b' :: rest => isBased 2 rest
  | cs => isDecimal cs

/-- An exponent, or nothing. -/
def isExponent : List Char → Bool
  | [] => true
  | c :: cs => (c == 'e' || c == 'E') && (digits? Char.isDigit (unsigned cs)).isSome

/-- A floating-point number. -/
def isFloat (cs : List Char) : Bool :=
  let body := unsigned cs
  let isPart (c : Char) : Bool := c.isDigit || c == '_'
  let whole := body.takeWhile isPart
  let rest := body.dropWhile isPart
  if body == "inf".toList || body == "nan".toList then true
  else
    isWhole whole &&
      match rest with
      | '.' :: after =>
        (digits? Char.isDigit (after.takeWhile isPart)).isSome && isExponent (after.dropWhile isPart)
      | _ => !rest.isEmpty && isExponent rest

/-- A number of exactly so many digits. -/
def fixed? (width : Nat) (cs : List Char) : Option Nat :=
  if cs.length = width then Digits.nat? cs else none

/-- A date. -/
def isDate (cs : List Char) : Bool :=
  match (splitAt '-' cs) with
  | [year, month, day] =>
    match fixed? 4 year, fixed? 2 month, fixed? 2 day with
    | some y, some m, some d => Calendar.Date.valid ⟨y, m, d⟩
    | _, _, _ => false
  | _ => false

/-- A time of the day, perhaps with a fraction of a second. -/
def isTime (cs : List Char) : Bool :=
  match splitAt ':' cs with
  | [hour, minute, second] =>
    let (whole, part) := (second.takeWhile (· != '.'), second.dropWhile (· != '.'))
    let fraction := match part with
      | [] => true
      | _ :: ds => (Digits.nat? ds).isSome
    match fixed? 2 hour, fixed? 2 minute, fixed? 2 whole with
    | some h, some m, some s => h ≤ 23 && m ≤ 59 && s ≤ 60 && fraction
    | _, _, _ => false
  | _ => false

/-- An offset from the standard time. -/
def isOffset (cs : List Char) : Bool :=
  match cs with
  | [] => true
  | ['Z'] | ['z'] => true
  | c :: rest =>
    (c == '+' || c == '-') &&
      match splitAt ':' rest with
      | [hour, minute] =>
        match fixed? 2 hour, fixed? 2 minute with
        | some h, some m => h ≤ 23 && m ≤ 59
        | _, _ => false
      | _ => false

/-- A date, a time of the day, or both with an optional offset. -/
def isMoment (cs : List Char) : Bool :=
  let isSeparator (c : Char) : Bool := c == 'T' || c == 't' || c == ' '
  let startsOffset (c : Char) : Bool := c == 'Z' || c == 'z' || c == '+' || c == '-'
  let date := cs.takeWhile (!isSeparator ·)
  match cs.dropWhile (!isSeparator ·) with
  | [] => isDate cs || isTime cs
  | _ :: rest =>
    isDate date && isTime (rest.takeWhile (!startsOffset ·)) && isOffset (rest.dropWhile (!startsOffset ·))

/-- Whether a text is a value that needs no quotes. -/
def isScalar (cs : List Char) : Bool :=
  cs == "true".toList || cs == "false".toList || isInteger cs || isFloat cs || isMoment cs

end RowQuery.Toml.Scalar
