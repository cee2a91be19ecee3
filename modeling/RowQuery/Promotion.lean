import RowQuery.Catalog
import RowQuery.Expr
import RowQuery.Text.Blank

/-!
Implicit conversions. A type is compatible with another if its values can be used there without being
asked to; which integral types that holds between is listed. A literal is more flexible than its type:
its text is read again as a value of the type that is wanted.
-/

namespace RowQuery

/-- The kinds that words of a kind can be used as. -/
def IntKind.wider : IntKind → List IntKind
  | .sbyte => [.sbyte, .int16, .int32, .int64]
  | .byte => [.byte, .int16, .uint16, .int32, .uint32, .int64, .uint64]
  | .int16 => [.int16, .int32, .int64]
  | .uint16 => [.uint16, .int32, .uint32, .int64, .uint64]
  | .int32 => [.int32, .int64]
  | .uint32 => [.uint32, .int64, .uint64]
  | .int64 => [.int64]
  | .uint64 => [.uint64]

/-- Whether words of one kind can be used as words of another. -/
def IntKind.within (k j : IntKind) : Bool := k.wider.contains j

/-- The kinds that are listed are those whose range holds that of the given kind. -/
theorem IntKind.within_iff {k j : IntKind} : k.within j ↔ j.least ≤ k.least ∧ k.greatest ≤ j.greatest := by
  cases k <;> cases j <;> decide

theorem IntKind.within_refl (k : IntKind) : k.within k := within_iff.mpr ⟨Int.le_refl _, Int.le_refl _⟩

/-- Whether values of one type become values of the other, neither being nullable, without loss of
magnitude. -/
def Ty.widens : Ty → Ty → Bool
  | .int k, .int j => k.within j
  | .int _, .single | .int _, .double | .int _, .decimal => true
  | .single, .double => true
  | s, t => s == t

namespace Catalog

/-- Whether values of the source type can be used where the target type is wanted. A nullable form is
never compatible with a type that is not. -/
def isCompatible (cat : Catalog) (source target : Ty) : Bool :=
  if source = target then true
  else if !target.isValueType then cat.isAssignable target source
  else if source.isNullable && !target.isNullable then false
  else source.underlying.widens target.underlying

end Catalog

namespace Literal

/-- Reads text as a number of a type. -/
def number? (text : String) : Ty → Option Value
  | .int k => (Word.read? k text).map (.int k)
  | .single => (Binary.read? text).map .single
  | .double => (Binary.read? text).map .double
  | .decimal => (Decimal.readAny? text).map .decimal
  | _ => none

/-- Reads text as the name of a member of an enumeration. -/
def member? (text : String) : Ty → Option Value
  | .enum e => (e.valueOf? (Text.trim text)).map (.enum e)
  | _ => none

/-- Reads a literal again as a value of a type or of the type under it: an integer as any number, a
real number as a decimal, and a string as the name of a member. -/
def reread? (e : Expr) (target : Ty) : Option Value :=
  match e with
  | .literal _ .null _ => none
  | .literal ty _ text =>
    let t := target.underlying
    match ty with
    | .int .int32 | .int .uint32 | .int .int64 | .int .uint64 => number? text t
    | .double => if t = .decimal then number? text t else none
    | .string => member? text t
    | _ => none
  | _ => none

end Literal

namespace Catalog

/-- An expression converted to a type, if it can be converted implicitly. With `exact` the result has
that type itself; otherwise an expression of a compatible reference type is left as it is. -/
def promote? (cat : Catalog) (e : Expr) (target : Ty) (exact : Bool) : Option Expr :=
  if e.ty = target then some e
  else
    let literal :=
      if e.isNullLiteral then if target.admitsNull then some .null else none
      else Literal.reread? e target
    match literal with
    | some value => some (.constant target value)
    | none =>
      if cat.isCompatible e.ty target then
        some (if target.isValueType || exact then .convert target false e else e)
      else none

end Catalog

end RowQuery
