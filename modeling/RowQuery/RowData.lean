import RowQuery.Json.Reader
import RowQuery.Schema

/-!
Rows as data: JSON values are read as values of a type, and values are written as JSON. Moments are
written as text, spans as seconds, decimals as text, and members of enumerations by their names.
-/

namespace RowQuery

namespace Json

/-- A number as a binary fraction. -/
def double? : Json → Option Double
  | .int n => some (.ofInt n)
  | .float x => some x
  | _ => none

/-- A text or number as the text of a decimal. -/
def decimalText? : Json → Option String
  | .string s => some s
  | .int n => some (toString n)
  | .float x => some (floatText x)
  | _ => none

mutual

/-- The value that a JSON value is by itself; an object is its own text. -/
def infer : Json → Value
  | .null => .null
  | .bool b => .boolean b
  | .int n =>
    match Word.ofInt? .int32 n, Word.ofInt? .int64 n with
    | some w, _ => .int .int32 w
    | none, some w => .int .int64 w
    | none, none => .int .uint64 (.wrap .uint64 n)
  | .float x => .double x
  | .string s => .string s
  | .array items => .list (inferAll items)
  | .object fields => .string (text (.object fields))

def inferAll : List Json → List Value
  | [] => []
  | v :: vs => v.infer :: inferAll vs

end

/-- The type without its nullable forms. -/
def core : Ty → Ty
  | .nullable t => core t
  | t => t

/-- A JSON value as a simple value of a type. -/
def scalar? (v : Json) : Ty → Option Value
  | .object => some v.infer
  | .boolean =>
    match v with
    | .bool b => some (.boolean b)
    | _ => none
  | .string =>
    match v with
    | .string s => some (.string s)
    | _ => none
  | .char =>
    match v with
    | .string s =>
      match s.toList with
      | [c] => some (.char c)
      | _ => none
    | _ => none
  | .int k =>
    match v with
    | .int n => (Word.ofInt? k n).map (.int k)
    | _ => none
  | .single => v.double?.map fun x => .single x.convert
  | .double => v.double?.map .double
  | .decimal => (v.decimalText?.bind Decimal.readAny?).map .decimal
  | .dateTime =>
    match v with
    | .string s => (DateTime.read? s).map .dateTime
    | _ => none
  | .timeSpan => (v.double?.bind TimeSpan.ofSeconds?).map .timeSpan
  | .enum e =>
    match v with
    | .string s => (e.valueOf? s).map (.enum e)
    | .int n => (Word.ofInt? .int64 n).map (.enum e)
    | _ => none
  | _ => none

/-- The absent value as a value of a type. -/
def absent (t : Ty) (path : String) : Except SchemaError Value :=
  if t.admitsNull then .ok .null else .error (.invalidValue path (.ty t) .null)

mutual

/-- A JSON value as a value of a type; the path says where it stands. -/
def toValue (cat : Catalog) (ty : Ty) (path : String) : Json → Except SchemaError Value
  | .null => absent ty path
  | .array items =>
    match core ty with
    | .list element => do return .list (← itemValues cat element path 0 items)
    | t => ofScalar t path (.array items)
  | .object fields =>
    match core ty with
    | .cls c => do
      let values ← (cat.fields c).mapM fun (name, t) =>
        fieldValue cat name t (path ++ "." ++ name) fields
      return .object c values []
    | t => ofScalar t path (.object fields)
  | .bool b => ofScalar (core ty) path (.bool b)
  | .int n => ofScalar (core ty) path (.int n)
  | .float x => ofScalar (core ty) path (.float x)
  | .string s => ofScalar (core ty) path (.string s)

/-- The items of a list. -/
def itemValues (cat : Catalog) (ty : Ty) (path : String) (i : Nat) :
    List Json → Except SchemaError (List Value)
  | [] => return []
  | v :: vs => do
    let first ← toValue cat ty (path ++ "[" ++ toString i ++ "]") v
    return first :: (← itemValues cat ty path (i + 1) vs)

/-- The value of a field of an object; one that is left out is absent. -/
def fieldValue (cat : Catalog) (name : String) (ty : Ty) (path : String) :
    List (String × Json) → Except SchemaError Value
  | [] => absent ty path
  | (n, v) :: rest => if n = name then toValue cat ty path v else fieldValue cat name ty path rest

/-- A value that is no list or object of a class. -/
def ofScalar (ty : Ty) (path : String) (v : Json) : Except SchemaError Value :=
  match v.scalar? ty with
  | some value => .ok value
  | none => .error (.invalidValue path (.ty ty) v)

end

/-- Reads rows: an array of values of one type. -/
def rows (cat : Catalog) (ty : Ty) : Json → Except SchemaError (List Value)
  | .array items => itemValues cat ty "$" 0 items
  | v => .error (.invalidValue "$" .rows v)

end Json

namespace Value

mutual

/-- A value as JSON. -/
def toJson (cat : Catalog) : Value → Json
  | .null => .null
  | .boolean b => .bool b
  | .char c => .string (String.singleton c)
  | .string s => .string s
  | .int _ n => .int n.val
  | .single x => .ofDouble x.convert
  | .double x => .ofDouble x
  | .decimal d => .string d.text
  | .dateTime t => .string t.dataText
  | .timeSpan d => .ofDouble d.totalSeconds
  | .enum e n => .string (text (.enum e n))
  | .object c fields _ => .ofFields ((cat.layout c).zip (allToJson cat fields))
  | .list items => .array (allToJson cat items)
  | .group key items =>
    .ofFields [("key", key.toJson cat), ("items", .array (allToJson cat items))]

def allToJson (cat : Catalog) : List Value → List Json
  | [] => []
  | v :: vs => v.toJson cat :: allToJson cat vs

end

end Value

end RowQuery
