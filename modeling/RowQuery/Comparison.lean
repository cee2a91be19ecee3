import RowQuery.EvalError
import RowQuery.Number

/-!
The order and the equality of values. The absent value comes before all others; numbers of all types
compare with each other, and otherwise only values of one kind do.
-/

namespace RowQuery.Value

/-- The order of two values, for sorting. -/
def compare (a b : Value) : Except EvalError Ordering :=
  match a, b with
  | .null, .null => .ok .eq
  | .null, _ => .ok .lt
  | _, .null => .ok .gt
  | .string s, .string t => .ok (Ord.compare s t)
  | .boolean p, .boolean q => .ok (Ord.compare p q)
  | .dateTime t, .dateTime u => .ok (Ord.compare t.nanos u.nanos)
  | .timeSpan t, .timeSpan u => .ok (Ord.compare t.nanos u.nanos)
  | a, b =>
    match Number.ofValue? a, Number.ofValue? b with
    | some m, some n => .ok (m.compare n)
    | _, _ => .error (.notComparable a.kindName b.kindName)

mutual

/-- Whether two values are of one kind and have the same content. Binary fractions compare as numbers,
so one that is no number differs from itself; decimals of different scales may be the same number. -/
def same : Value → Value → Bool
  | .null, .null => true
  | .boolean p, .boolean q => p == q
  | .char c, .char d => c == d
  | .string s, .string t => s == t
  | .int k m, .int j n => k == j && m.val == n.val
  | .single x, .single y => x.same y
  | .double x, .double y => x.same y
  | .decimal d, .decimal e => d.compare e == .eq
  | .dateTime t, .dateTime u => t.nanos == u.nanos
  | .timeSpan t, .timeSpan u => t.nanos == u.nanos
  | .enum e m, .enum f n => e == f && m == n
  | .object c xs is, .object d ys js => c == d && sameAll xs ys && sameAll is js
  | .list xs, .list ys => sameAll xs ys
  | .group k xs, .group l ys => same k l && sameAll xs ys
  | _, _ => false

def sameAll : List Value → List Value → Bool
  | [], [] => true
  | x :: xs, y :: ys => same x y && sameAll xs ys
  | _, _ => false

end

/-- Whether two values are equal: numbers by what they stand for, other values by their content. -/
def equal (a b : Value) : Bool :=
  match Number.ofValue? a, Number.ofValue? b with
  | some (.float x), some (.float y) => x.same y
  | some m, some n => m.compare n == .eq
  | _, _ => a.same b

end RowQuery.Value
