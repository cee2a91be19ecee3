import RowQuery.Arithmetic
import RowQuery.Comparison

/-!
Operations on the items of a sequence. Each is given a selector, which computes the argument of the
operation for one item, and calls it on the items from the first to the last, as far as it has to.
-/

namespace RowQuery.Aggregate

variable {m : Type → Type} [Monad m] [MonadExceptOf EvalError m]

/-- A condition that was computed for an item; an absent one does not hold. -/
def truth (op : AggregateOp) : Value → Except EvalError Bool
  | .boolean b => .ok b
  | .null => .ok false
  | v => .error (.typeError (.expectsCondition op v.kindName))

/-- What a pure rule says. -/
def rule {α : Type} : Except EvalError α → m α
  | .ok a => pure a
  | .error e => throw e

/-- Whether the selected condition holds for an item. -/
def holds (op : AggregateOp) (select : Value → m Value) (item : Value) : m Bool := do
  rule (truth op (← select item))

/-- The result over no items: absent if the type of the result admits that. -/
def empty (result : Ty) : Except EvalError Value :=
  if result.admitsNull then .ok .null else .error .emptySequence

/-- A count as a value. -/
def countValue (n : Nat) : Except EvalError Value :=
  match Word.ofInt? .int32 n with
  | some w => .ok (.int .int32 w)
  | none => .error (.overflow .count)

/-- The better of the best value so far and another one, which wins only if it is strictly better. -/
def better (op : AggregateOp) (best : Option Value) (v : Value) : Except EvalError (Option Value) :=
  match best with
  | none => .ok (some v)
  | some b => do
    let order ← v.compare b
    return some (if order = (if op = .min then .lt else .gt) then v else b)

/-- A sum with one more term; integers may not leave their range. -/
def addTerm (total v : Value) : Except EvalError Value :=
  let checked (sum : Option Value) : Except EvalError Value :=
    match sum with
    | some v => .ok v
    | none => .error (.overflow .sum)
  match total, v with
  | .int .int32 a, .int .int32 b =>
    checked ((Word.ofInt? .int32 (a.val + b.val)).map (.int .int32))
  | .int .int64 a, .int .int64 b =>
    checked ((Word.ofInt? .int64 (a.val + b.val)).map (.int .int64))
  | .single a, .single b => .ok (.single (a.add b))
  | .double a, .double b => .ok (.double (a.add b))
  | .decimal a, .decimal b => checked ((a.add? b).map .decimal)
  | _, v => .error (.typeError (.undefined "Sum" v.kindName))

/-- A value as a binary fraction; zero if it is no number. -/
def float (v : Value) : Double := ((Number.ofValue? v).map Number.toDouble).getD (.zero false)

/-- The sum of binary fractions, from the first on. -/
def floatSum (xs : List Double) : Double := xs.foldl Binary.add (.zero true)

/-- The sum of the decimals among some values. -/
def decimalSum (values : List Value) : Except EvalError Decimal :=
  values.foldlM (fun total v =>
    match v with
    | .decimal d =>
      match total.add? d with
      | some sum => .ok sum
      | none => .error (.overflow .average)
    | _ => .ok total) Decimal.zero

/-- The mean of one or more values as a value of the result type. -/
def mean (values : List Value) (result : Ty) : Except EvalError Value :=
  let count : Int := values.length
  let float : Double := (floatSum (values.map float)).div (.ofInt count)
  match result.underlying with
  | .decimal => do
    let total ← decimalSum values
    match (Decimal.ofInt? count).bind total.div? with
    | some d => return .decimal d
    | none => throw (.overflow .average)
  | .single => .ok (.single float.convert)
  | _ => .ok (.double float)

/-- Applies an operation to items. The type of the argument tells whether there is one. -/
def apply (op : AggregateOp) (items : List Value) (body : Option Ty) (result : Ty)
    (select : Value → m Value) : m Value := do
  match op with
  | .filter => return .list (← items.filterM (holds op select))
  | .any =>
    if body.isNone then return .boolean !items.isEmpty
    return .boolean (← items.anyM (holds op select))
  | .all => return .boolean (← items.allM (holds op select))
  | .count =>
    if body.isNone then rule (countValue items.length)
    else rule (countValue (← items.filterM (holds op select)).length)
  | .min | .max =>
    let best ← items.foldlM (fun best item => do
      let v ← select item
      if v.isNull then return best else rule (better op best v)) none
    match best with
    | some v => return v
    | none => rule (empty result)
  | .sum =>
    items.foldlM (fun total item => do
      let v ← select item
      if v.isNull then return total else rule (addTerm total v)) (body.getD result).zero
  | .average =>
    let values := (← items.mapM select).filter fun v => !v.isNull
    if values.isEmpty then rule (empty result) else rule (mean values result)

end RowQuery.Aggregate
