import RowQuery.EvalError
import RowQuery.Number

/-!
Arithmetic on values. Sums, differences and products of integers wrap around; quotients, and everything
on decimals, moments and spans, fail where the result cannot be held. An absent operand makes the
result absent.
-/

namespace RowQuery

namespace Word

/-- An arithmetic operation on words. A quotient that is no word makes the remainder fail too. -/
def arithmetic (k : IntKind) (op : BinaryOp) (a b : Word k) : Except EvalError (Word k) :=
  match op with
  | .add => .ok (wrap k (a.val + b.val))
  | .subtract => .ok (wrap k (a.val - b.val))
  | .multiply => .ok (wrap k (a.val * b.val))
  | .divide =>
    if b.val = 0 then .error .divideByZero
    else
      match ofInt? k (a.val.tdiv b.val) with
      | some q => .ok q
      | none => .error (.overflow .division)
  | .modulo =>
    if b.val = 0 then .error .divideByZero
    else
      match ofInt? k (a.val.tdiv b.val) with
      | some _ => .ok (wrap k (a.val.tmod b.val))
      | none => .error (.overflow .remainder)
  | op => .error (.typeError (.notArithmetic op))

end Word

/-- An arithmetic operation on binary fractions. -/
def Binary.arithmetic {f : Format} (op : BinaryOp) (x y : Binary f) : Except EvalError (Binary f) :=
  match op with
  | .add => .ok (x.add y)
  | .subtract => .ok (x.sub y)
  | .multiply => .ok (x.mul y)
  | .divide => .ok (x.div y)
  | .modulo => .ok (x.rem y)
  | op => .error (.typeError (.notArithmetic op))

namespace Decimal

/-- The result of an operation on decimals, if there is one. -/
def checked (op : BinaryOp) : Option Decimal → Except EvalError Decimal
  | some d => .ok d
  | none => .error (.overflow (.decimal op))

/-- An arithmetic operation on decimals. -/
def arithmetic (op : BinaryOp) (a b : Decimal) : Except EvalError Decimal :=
  match op with
  | .add => checked op (a.add? b)
  | .subtract => checked op (a.sub? b)
  | .multiply => checked op (a.mul? b)
  | .divide => if b.isZero then .error .divideByZero else checked op (a.div? b)
  | .modulo => if b.isZero then .error .divideByZero else checked op (a.rem? b)
  | op => .error (.typeError (.notArithmetic op))

end Decimal

/-- The integral types that arithmetic is defined on. -/
def IntKind.isArithmetic (k : IntKind) : Bool := 32 ≤ k.bits

namespace Value

/-- The operation on two values that is not defined. -/
def undefinedOperator (op : BinaryOp) (a b : Value) : EvalError :=
  .typeError (.operator op a.kindName b.kindName)

/-- A moment as a value, if there is one. -/
def ofDateTime? : Option DateTime → Except EvalError Value
  | some t => .ok (.dateTime t)
  | none => .error (.overflow .dateTime)

/-- A span as a value, if there is one. -/
def ofTimeSpan? : Option TimeSpan → Except EvalError Value
  | some t => .ok (.timeSpan t)
  | none => .error (.overflow .timeSpan)

/-- An arithmetic operation on values. -/
def arithmetic (op : BinaryOp) (a b : Value) : Except EvalError Value :=
  match a, b with
  | .null, _ | _, .null => .ok .null
  | .int k m, .int j n =>
    if h : j = k then
      if k.isArithmetic then (Word.arithmetic k op m (h ▸ n)).map (.int k)
      else .error (undefinedOperator op a b)
    else .error (undefinedOperator op a b)
  | .single x, .single y => (Binary.arithmetic op x y).map .single
  | .double x, .double y => (Binary.arithmetic op x y).map .double
  | .decimal d, .decimal e => (Decimal.arithmetic op d e).map .decimal
  | .dateTime t, .timeSpan d =>
    match op with
    | .add => ofDateTime? (t.add? d)
    | .subtract => ofDateTime? (t.sub? d)
    | op => .error (undefinedOperator op a b)
  | .dateTime t, .dateTime u =>
    match op with
    | .subtract => .ok (.timeSpan (t.since u))
    | op => .error (undefinedOperator op a b)
  | .timeSpan d, .timeSpan e =>
    match op with
    | .add => ofTimeSpan? (d.add? e)
    | .subtract => ofTimeSpan? (d.sub? e)
    | op => .error (undefinedOperator op a b)
  | a, b => .error (undefinedOperator op a b)

/-- The opposite of a number. -/
def negate : Value → Except EvalError Value
  | .null => .ok .null
  | .int .int32 n => .ok (.int .int32 (.wrap _ (-n.val)))
  | .int .int64 n => .ok (.int .int64 (.wrap _ (-n.val)))
  | .single x => .ok (.single x.neg)
  | .double x => .ok (.double x.neg)
  | .decimal d => .ok (.decimal d.neg)
  | v => .error (.typeError (.negate v.kindName))

/-- The opposite of a truth value. -/
def invert : Value → Except EvalError Value
  | .null => .ok .null
  | .boolean b => .ok (.boolean !b)
  | v => .error (.typeError (.invert v.kindName))

end Value

/-- The zero of a numeric type or of the type under it; of any other type that of the 32-bit integers. -/
def Ty.zero (ty : Ty) : Value :=
  match ty.underlying with
  | .int .int64 => .int .int64 (.wrap _ 0)
  | .single => .single (.zero false)
  | .double => .double (.zero false)
  | .decimal => .decimal .zero
  | _ => .int32 0

end RowQuery
