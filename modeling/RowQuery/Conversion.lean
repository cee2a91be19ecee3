import RowQuery.Arithmetic
import RowQuery.Catalog

/-!
Explicit conversions. A checked conversion fails where the number does not fit the target type; an
unchecked one between integers keeps the low bits. Decimals always count as checked.
-/

namespace RowQuery

namespace Number

/-- The failure of a number to fit a type. -/
def outOfRange (text : String) (target : Ty) : EvalError := .overflow (.range text target)

/-- The character with a number. -/
def char? (n : Int) : Option Char :=
  if 0 ≤ n ∧ n.toNat.isValidChar then some (Char.ofNat n.toNat) else none

/-- An integer as a value of a type. -/
def convertInt (n : Int) (target : Ty) (checked : Bool) : Except EvalError Value :=
  let require {α : Type} (form : α → Value) : Option α → Except EvalError Value
    | some a => .ok (form a)
    | none => .error (outOfRange (toString n) target)
  match target with
  | .int k => if checked then require (.int k) (Word.ofInt? k n) else .ok (.int k (.wrap k n))
  | .single => .ok (.single (.ofInt n))
  | .double => .ok (.double (.ofInt n))
  | .decimal => require .decimal (Decimal.ofInt? n)
  | .char => require .char (char? n)
  | .enum e => require (.enum e) (Word.ofInt? .int64 n)
  | target => .error (.invalidCast IntKind.int64.name target)

/-- The bound below which a conversion by way of integers works. -/
def integerBound : Int := 2 ^ 127

/-- The integer part of a binary fraction, held within bounds; zero if it is no number. -/
def boundedInteger (x : Double) : Int :=
  match x.view with
  | .nan _ => 0
  | .infinite negative => if negative then -integerBound else integerBound - 1
  | .finite _ _ _ => max (-integerBound) (min (integerBound - 1) (x.truncate?.getD 0))

/-- Whether the integer part of a binary fraction is within bounds, the upper one included. -/
def isBounded (x : Double) : Bool :=
  match x.truncate? with
  | some n => -integerBound ≤ n && n ≤ integerBound
  | none => false

/-- A binary fraction as a value of a type; of an integral type by its integer part. -/
def convertFloat (x : Double) (target : Ty) (checked : Bool) : Except EvalError Value :=
  match target with
  | .single => .ok (.single x.convert)
  | .double => .ok (.double x)
  | .decimal =>
    match Decimal.ofDouble? x with
    | some d => .ok (.decimal d)
    | none => .error (outOfRange x.plainText target)
  | target =>
    if checked && !isBounded x then .error (outOfRange x.plainText target)
    else convertInt (boundedInteger x) target checked

/-- A decimal as a value of a type; of an integral type by its integer part. -/
def convertDecimal (d : Decimal) (target : Ty) : Except EvalError Value :=
  match target with
  | .single => .ok (.single d.toDouble.convert)
  | .double => .ok (.double d.toDouble)
  | .decimal => .ok (.decimal d)
  | target => convertInt d.truncateInt target true

/-- A number as a value of a type. -/
def convert (n : Number) (target : Ty) (checked : Bool) : Except EvalError Value :=
  match n with
  | int n => convertInt n target checked
  | float x => convertFloat x target checked
  | decimal d => convertDecimal d target

end Number

namespace Catalog

/-- A present value as a value of a type that is not nullable and not its own. -/
def castTo (cat : Catalog) (v : Value) (target : Ty) (checked : Bool) : Except EvalError Value :=
  let keepIf (holds : Bool) : Except EvalError Value :=
    if holds then .ok v else .error (.invalidCast v.kindName target)
  match target with
  | .object => .ok v
  | .string => keepIf v.string?.isSome
  | .cls c =>
    keepIf (match v with
      | .object d _ _ => cat.isSubclass d c
      | _ => false)
  | .list _ | .grouping _ _ => keepIf (cat.items? v).isSome
  | target =>
    match Number.ofValue? v with
    | some n => n.convert target checked
    | none => .error (.invalidCast v.kindName target)

/-- A value of one type as a value of another. The absent value stays absent where that is allowed. -/
def convert (cat : Catalog) (v : Value) (source target : Ty) (checked : Bool) :
    Except EvalError Value :=
  if v.isNull then
    if target.admitsNull then .ok .null else .error .nullableNoValue
  else if source.underlying = target.underlying then .ok v
  else cat.castTo v target.underlying checked

end Catalog

end RowQuery
