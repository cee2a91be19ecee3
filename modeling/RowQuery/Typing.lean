import RowQuery.Fault
import RowQuery.Overload

/-!
The typing rules: how typed operands make a typed expression. Each rule either gives the node, with the
operands converted as the rule requires, or the fault that stands in its way.
-/

namespace RowQuery.Typing

/-- The operands converted to the best overload of an operator. -/
def operands (cat : Catalog) (signatures : List (List Ty)) (symbol : String) (left right : Expr) :
    Except Fault (Expr × Expr) :=
  match Overload.resolve cat signatures [left, right] with
  | .found ⟨_, _, [l, r]⟩ => .ok (l, r)
  | _ => .error (.incompatibleOperands symbol left.ty right.ty)

/-- A disjunction or conjunction. -/
def logical (cat : Catalog) (op : BinaryOp) (symbol : String) (left right : Expr) :
    Except Fault Expr := do
  let (l, r) ← operands cat Signatures.logical symbol left right
  return .binary l.ty op l r

def isIntegerLiteral (e : Expr) : Bool := e.literalText?.isSome && e.ty.isIntegral

/-- An integral type of less than 32 bits. -/
def isNarrow : Ty → Bool
  | .int k => k.bits < 32
  | _ => false

/-- An integer literal read as a value of the integral type it is compared with, where it fits. One that
a narrow type can never hold is no operand of an equality; any other keeps its own type. -/
def narrowed (equality : Bool) (literal other : Expr) : Except Fault Expr :=
  let target := other.ty.underlying
  if !target.isIntegral || target = literal.ty then .ok literal
  else
    match Literal.reread? literal target with
    | some value => .ok (.constant target value)
    | none =>
      if equality && isNarrow target then
        .error (.literalOutOfRange (literal.literalText?.getD "") target)
      else .ok literal

/-- Narrows the operand that is an integer literal, if exactly one is. -/
def narrowLiteral (equality : Bool) (left right : Expr) : Except Fault (Expr × Expr) := do
  match isIntegerLiteral left, isIntegerLiteral right with
  | true, false => return (← narrowed equality left right, right)
  | false, true => return (left, ← narrowed equality right left)
  | _, _ => return (left, right)

/-- Two operands of reference types, one of them converted to the type of the other. -/
def referencePair (cat : Catalog) (symbol : String) (left right : Expr) :
    Except Fault (Expr × Expr) :=
  if left.ty = right.ty then .ok (left, right)
  else if cat.isAssignable left.ty right.ty then .ok (left, .convert left.ty false right)
  else if cat.isAssignable right.ty left.ty then .ok (.convert right.ty false left, right)
  else .error (.incompatibleOperands symbol left.ty right.ty)

/-- Two operands of which one is of an enumeration, one of them promoted to the type of the other. -/
def enumPair (cat : Catalog) (symbol : String) (left right : Expr) : Except Fault (Expr × Expr) :=
  if left.ty = right.ty then .ok (left, right)
  else
    match cat.promote? right left.ty true, cat.promote? left right.ty true with
    | some r, _ => .ok (left, r)
    | none, some l => .ok (l, right)
    | none, none => .error (.incompatibleOperands symbol left.ty right.ty)

/-- The operands of a comparison, converted so that they can be compared. -/
def comparable (cat : Catalog) (op : BinaryOp) (symbol : String) (left right : Expr) :
    Except Fault (Expr × Expr) := do
  if op.isEquality && !left.ty.isValueType && !right.ty.isValueType then
    referencePair cat symbol left right
  else if left.ty.isEnum || right.ty.isEnum then enumPair cat symbol left right
  else
    let (l, r) ← narrowLiteral op.isEquality left right
    let signatures := if op.isEquality then Signatures.equality else Signatures.relational
    operands cat signatures symbol l r

/-- A comparison. Strings are put in order by comparing them with a method and its result with zero. -/
def comparison (cat : Catalog) (op : BinaryOp) (symbol : String) (left right : Expr) :
    Except Fault Expr := do
  let (l, r) ← comparable cat op symbol left right
  if !op.isEquality && l.ty.underlying = .string then
    let order := .call .int32 Predefined.compareStrings none [l, r]
    return .binary .boolean op order (.constant .int32 (.int32 0))
  return .binary .boolean op l r

/-- The type of an arithmetic result: that of the left operand, but for the difference of two
moments. -/
def arithmeticType (op : BinaryOp) (left right : Ty) : Ty :=
  if op = .subtract ∧ left.underlying = .dateTime ∧ right.underlying = .dateTime then
    if left.isNullable then .nullable .timeSpan else .timeSpan
  else left

/-- An arithmetic operation. -/
def arithmetic (cat : Catalog) (signatures : List (List Ty)) (op : BinaryOp) (symbol : String)
    (left right : Expr) : Except Fault Expr := do
  let (l, r) ← operands cat signatures symbol left right
  return .binary (arithmeticType op l.ty r.ty) op l r

/-- The texts of two values joined. -/
def concatenation (left right : Expr) : Expr := .call .string Predefined.concat none [left, right]

/-- A sum, or a concatenation if an operand is a string. -/
def sum (cat : Catalog) (symbol : String) (left right : Expr) : Except Fault Expr :=
  if left.ty = .string ∨ right.ty = .string then .ok (concatenation left right)
  else arithmetic cat Signatures.add .add symbol left right

/-- A negation, of a number or of a truth value. -/
def unary (cat : Catalog) (op : UnaryOp) (symbol : String) (operand : Expr) : Except Fault Expr :=
  let signatures := match op with
    | .negate => Signatures.negation
    | .not => Signatures.not
  match Overload.resolve cat signatures [operand] with
  | .found ⟨_, _, [e]⟩ => .ok (.unary e.ty op e)
  | _ => .error (.incompatibleOperand symbol operand.ty)

/-- How messages call the type of a branch. -/
def branchType (e : Expr) : TypeRef := if e.isNullLiteral then .null else .ty e.ty

/-- The branches of a conditional brought to one type: if they differ, exactly one of them must be
convertible to the type of the other. -/
def branches (cat : Catalog) (yes no : Expr) : Except Fault (Expr × Expr) :=
  if yes.ty = no.ty then .ok (yes, no)
  else
    let yesAsNo := if no.isNullLiteral then none else cat.promote? yes no.ty true
    let noAsYes := if yes.isNullLiteral then none else cat.promote? no yes.ty true
    match yesAsNo, noAsYes with
    | some y, none => .ok (y, no)
    | none, some n => .ok (yes, n)
    | some _, some _ => .error (.bothConvert (branchType yes) (branchType no))
    | none, none => .error (.neitherConverts (branchType yes) (branchType no))

/-- A conditional. -/
def conditional (cat : Catalog) (test yes no : Expr) : Except Fault Expr := do
  if test.ty ≠ .boolean then throw .firstMustBeBoolean
  let (y, n) ← branches cat yes no
  return .conditional y.ty test y n

/-- A conversion that was asked for by the name of the target type. Between numbers and enumerations it
is checked. -/
def conversion (cat : Catalog) (e : Expr) (target : Ty) : Except Fault Expr :=
  let source := e.ty
  let isNumber (t : Ty) : Bool := t.isNumeric || t.isEnum
  let values := source.isValueType && target.isValueType
  if source = target then .ok e
  else if values && (source.isNullable || target.isNullable) &&
      source.underlying = target.underlying then .ok (.convert target false e)
  else if values && isNumber source && isNumber target then .ok (.convert target true e)
  else if cat.isAssignable target source || cat.isAssignable source target then
    .ok (.convert target false e)
  else .error (.cannotConvert source target)

/-- The nullable form of a type. -/
def nullable (ty : Ty) : Except Fault Ty :=
  if ty.isValueType && !ty.isNullable then .ok (.nullable ty) else .error (.noNullableForm ty)

/-- The name of a type applied to arguments: a constructor or, failing that, a conversion. -/
def construction (cat : Catalog) (ty : Ty) (args : List Expr) : Except Fault Expr :=
  match Overload.choose cat Method.params (cat.constructors ty) args with
  | .found ctor promoted => .ok (.new ty ctor promoted)
  | .ambiguous => .error (.ambiguousConstructor ty)
  | .none =>
    match args with
    | [e] => conversion cat e ty
    | _ => .error (.noMatchingConstructor ty)

/-- What stands before the dot of a member: a type, whose static members it has, or a value. -/
inductive Receiver where
  | type (t : Ty)
  | value (e : Expr)

namespace Receiver

def ty : Receiver → Ty
  | type t => t
  | value e => e.ty

def isStatic : Receiver → Bool
  | type _ => true
  | value _ => false

def expr? : Receiver → Option Expr
  | type _ => none
  | value e => some e

/-- The type of the items if a call is an operation on the items of a sequence: it is unless the type
has a method of that name. -/
def aggregated? (cat : Catalog) (name : String) : Receiver → Option Ty
  | type _ => none
  | value e =>
    if e.ty = .string || cat.declaresMethod e.ty name then none else cat.elementType? e.ty

end Receiver

/-- A property. -/
def property (cat : Catalog) (receiver : Receiver) (name : String) : Except Fault Expr :=
  match cat.property? receiver.ty name receiver.isStatic with
  | some p => .ok (.property p.ty p receiver.expr?)
  | none => .error (.unknownMember name receiver.ty)

/-- A call of a method: of the levels of the hierarchy, the first with an applicable one decides. -/
def methodCall (cat : Catalog) (receiver : Receiver) (name : String) (args : List Expr) :
    Except Fault Expr :=
  let levels := (cat.memberChain receiver.ty).map (·.methodsNamed name receiver.isStatic)
  match Overload.chooseLevel cat Method.params args levels with
  | .found m promoted => .ok (.call m.result m receiver.expr? promoted)
  | .ambiguous => .error (.ambiguousMethod name receiver.ty)
  | .none => .error (.noApplicableMethod name receiver.ty)

/-- The type of an aggregate whose argument, if it has one, is of the given type. -/
def aggregateType (cat : Catalog) (op : AggregateOp) (source : Ty) (arg : Option Ty) : Ty :=
  match op, arg with
  | .filter, _ => .list ((cat.elementType? source).getD .object)
  | .any, _ | .all, _ => .boolean
  | .count, _ => .int32
  | .average, some t =>
    let inner := match t.underlying with
      | .int .int32 | .int .int64 => .double
      | other => other
    if t.isNullable then .nullable inner else inner
  | _, some t => t
  | _, none => .object

/-- An operation on the items of a sequence. The least and the greatest keep the type of the
argument. -/
def aggregate (cat : Catalog) (source : Expr) (slot : Nat) (name : String) (args : List Expr) :
    Except Fault Expr :=
  match Overload.choose cat Prod.snd (Signatures.aggregatesNamed name) args with
  | .found (op, _) promoted =>
    let body := if op = .min ∨ op = .max then args.getLast? else promoted.getLast?
    let ty := aggregateType cat op source.ty (body.map (·.ty))
    .ok (.aggregate ty op slot source body)
  | _ => .error (.noApplicableAggregate name)

/-- The element of a list at a position, or the result of an indexer. -/
def element (cat : Catalog) (e : Expr) (args : List Expr) : Except Fault Expr :=
  match e.ty with
  | .list item =>
    match args with
    | [position] =>
      match cat.promote? position .int32 false with
      | some p => .ok (.index item e p)
      | none => .error .invalidIndex
    | _ => .error .severalIndices
  | ty =>
    match Overload.chooseLevel cat Method.params args ((cat.memberChain ty).map (·.indexers)) with
    | .found m promoted => .ok (.call m.result m (some e) promoted)
    | .ambiguous => .error (.ambiguousIndexer ty)
    | .none => .error (.noApplicableIndexer ty)

/-- A call of a compiled expression. -/
def invocation (cat : Catalog) (l : Lambda) (args : List Expr) : Except Fault Expr :=
  match Overload.resolve cat [l.paramTypes] args with
  | .found choice => .ok (.invoke l.resultType l.params l.slots l.body choice.args)
  | _ => .error .argsIncompatible

/-- An object of a new shape. -/
def projection (fields : List (String × Expr)) : Expr :=
  .init (.ofFields (fields.map fun (name, e) => (name, e.ty))) (fields.map (·.2))

/-- The whole expression converted to the type that was asked for, if one was. -/
def result (cat : Catalog) (e : Expr) : Option Ty → Except Fault Expr
  | none => .ok e
  | some ty =>
    match cat.promote? e ty true with
    | some converted => .ok converted
    | none => .error (.typeMismatch ty)

end RowQuery.Typing
