import RowQuery.Aggregate
import RowQuery.Operation

/-!
Evaluation of typed expressions. The slots hold the values of parameters and of the variables of
aggregates; a slot keeps its last value until it is bound again.
-/

namespace RowQuery

/-- The values of the slots. -/
abbrev Slots := List Value

namespace Slots

/-- So many slots without values. -/
def empty (n : Nat) : Slots := List.replicate n .null

/-- Binds a slot, making room for it if there is none. -/
def bind (slots : Slots) (slot : Nat) (v : Value) : Slots :=
  (slots ++ empty (slot + 1 - slots.length)).set slot v

/-- The slots of a call: the arguments in the slots of the parameters. -/
def ofArguments (n : Nat) (params : List Param) (args : List Value) : Slots :=
  (params.zip args).foldl (fun slots (p, v) => slots.bind p.slot v) (empty n)

end Slots

/-- A computation over slots that may fail. -/
abbrev Eval := ExceptT EvalError (StateM Slots)

namespace Eval

/-- What a pure rule says. -/
def rule {α : Type} (e : Except EvalError α) : Eval α := Aggregate.rule e

/-- The value in a slot. -/
def slot (n : Nat) : Eval Value := do
  match (← get)[n]? with
  | some v => return v
  | none => throw (.typeError (.unboundSlot n))

/-- A failure that a callback reported. -/
def native (e : Except String Value) : Except EvalError Value := e.mapError .native

/-- The value of a property of an object, or of a type if there is none. -/
def property (cat : Catalog) (p : Property) (this : Option Value) : Except EvalError Value :=
  match p.getter with
  | .field i =>
    match this with
    | some (.object _ fields _) => Operation.orElse (.indexOutOfRange i fields.length) fields[i]?
    | _ => .error (.typeError (.expectsObject p.name))
  | .constant v => .ok v
  | .builtin op =>
    match this with
    | some this => Operation.property cat op this
    | none => .error (.typeError (.needsInstance p.name))
  | .native run => native (run cat.layout (this.getD .null))

/-- The result of a method. -/
def call (cat : Catalog) (m : Method) (this : Option Value) (args : List Value) :
    Except EvalError Value :=
  match m.body with
  | .builtin .objectNew => .error (.typeError (.isConstructor m.name))
  | .builtin op => Operation.call cat op m this args
  | .native run => native (run cat.layout this args)

/-- An object made by a constructor. -/
def construct (cat : Catalog) (ty : Ty) (ctor : Method) (args : List Value) : Except EvalError Value :=
  match ctor.body with
  | .builtin op => Operation.construct cat op ty args
  | .native run => native (run cat.layout none args)

/-- The element of a sequence at a position. -/
def element (cat : Catalog) (sequence i : Value) : Except EvalError Value := do
  if sequence.isNull then throw (.nullReference "[]")
  let items ← Operation.orElse (.typeError .expectsList) (cat.items? sequence)
  match i with
  | .int .int32 n =>
    let item := if 0 ≤ n.val then items[n.val.toNat]? else none
    Operation.orElse (.indexOutOfRange n.val items.length) item
  | _ => throw (.typeError .expectsPosition)

/-- A receiver that is present, or absent where its type admits that. -/
def receiver (ty : Ty) (member : String) (v : Value) : Except EvalError Value :=
  if v.isNull && !ty.isNullable then .error (.nullReference member) else .ok v

/-- The items of the source of an aggregate. -/
def sourceItems (cat : Catalog) (op : AggregateOp) (source : Value) :
    Except EvalError (List Value) :=
  if source.isNull then .error (.nullReference op.name)
  else Operation.orElse (.typeError (.expectsSequence op.name)) (cat.items? source)

def isNan : Value → Bool
  | .single x => x.isNan
  | .double x => x.isNan
  | _ => false

/-- A comparison by order. It does not hold of what is absent or no number. -/
def inOrder (test : Ordering → Bool) (a b : Value) : Except EvalError Value :=
  if a.isNull || b.isNull || isNan a || isNan b then .ok (.boolean false)
  else (a.compare b).map fun order => .boolean (test order)

/-- An operator whose operands are both known. -/
def strict (op : BinaryOp) (a b : Value) : Except EvalError Value :=
  match op with
  | .equal => .ok (.boolean (a.equal b))
  | .notEqual => .ok (.boolean !a.equal b)
  | .lessThan => inOrder (· == .lt) a b
  | .lessThanOrEqual => inOrder (· != .gt) a b
  | .greaterThan => inOrder (· == .gt) a b
  | .greaterThanOrEqual => inOrder (· != .lt) a b
  | op => Value.arithmetic op a b

/-- The truth value that decides a connective by itself. -/
def deciding? : BinaryOp → Option Bool
  | .andAlso => some false
  | .orElse => some true
  | _ => none

/-- Whether a value is a given truth value. -/
def isBool (b : Bool) : Value → Bool
  | .boolean c => b == c
  | _ => false

/-- The value of a connective that its left operand has not decided: decided by the right one, or the
opposite if both are that, or else unknown. -/
def connective (decisive : Bool) (a b : Value) : Value :=
  if isBool decisive b then .boolean decisive
  else if isBool (!decisive) a && isBool (!decisive) b then .boolean !decisive
  else .null

/-- The branch that a condition chooses; an unknown condition does not hold. -/
def chooses : Value → Except EvalError Bool
  | .boolean b => .ok b
  | .null => .ok false
  | v => .error (.typeError (.condition v.kindName))

end Eval

namespace Catalog

open Eval

mutual

/-- The value of an expression. -/
def eval (cat : Catalog) : Expr → Eval Value
  | .literal _ v _ => return v
  | .constant _ v => return v
  | .param _ n => slot n
  | .property _ p this => do
    let this ← cat.evalReceiver p.name this
    rule (property cat p this)
  | .call _ m this args => do
    let this ← cat.evalReceiver m.name this
    let args ← cat.evalAll args
    rule (call cat m this args)
  | .aggregate ty op _ source none => do
    let items ← rule (sourceItems cat op (← cat.eval source))
    Aggregate.apply op items none ty pure
  | .aggregate ty op n source (some body) => do
    let items ← rule (sourceItems cat op (← cat.eval source))
    Aggregate.apply op items (some body.ty) ty fun item => do
      modify (·.bind n item)
      cat.eval body
  | .index _ list i => do
    let list ← cat.eval list
    let i ← cat.eval i
    rule (element cat list i)
  | .unary _ .negate e => do rule (← cat.eval e).negate
  | .unary _ .not e => do rule (← cat.eval e).invert
  | .binary _ op left right => do
    let a ← cat.eval left
    match deciding? op with
    | some decisive =>
      if isBool decisive a then return .boolean decisive
      return connective decisive a (← cat.eval right)
    | none =>
      let b ← cat.eval right
      rule (strict op a b)
  | .conditional _ test yes no => do
    if ← rule (chooses (← cat.eval test)) then cat.eval yes else cat.eval no
  | .convert ty checked e => do rule (cat.convert (← cat.eval e) e.ty ty checked)
  | .new ty ctor args => do
    let args ← cat.evalAll args
    rule (construct cat ty ctor args)
  | .init c values => do return .object c (← cat.evalAll values) []
  | .invoke _ params n body args => do
    let args ← cat.evalAll args
    if args.length = params.length then
      rule ((cat.eval body).run (Slots.ofArguments n params args)).1
    else throw (.arity params.length args.length)

/-- The values of expressions, from the first to the last. -/
def evalAll (cat : Catalog) : List Expr → Eval (List Value)
  | [] => return []
  | e :: es => do
    let v ← cat.eval e
    return v :: (← cat.evalAll es)

/-- The receiver of a member. -/
def evalReceiver (cat : Catalog) (member : String) : Option Expr → Eval (Option Value)
  | none => return none
  | some e => do return some (← rule (receiver e.ty member (← cat.eval e)))

end

/-- The value of a compiled expression for arguments. -/
def evalLambda (cat : Catalog) (l : Lambda) (args : List Value) : Except EvalError Value :=
  if args.length = l.params.length then
    ((cat.eval l.body).run (Slots.ofArguments l.slots l.params args)).1
  else .error (.arity l.params.length args.length)

/-- Whether a compiled condition holds for arguments; an unknown one does not. -/
def evalPredicate (cat : Catalog) (l : Lambda) (args : List Value) : Except EvalError Bool := do
  match ← cat.evalLambda l args with
  | .boolean b => return b
  | .null => return false
  | v => throw (.typeError (.predicate v.kindName))

end Catalog

end RowQuery
