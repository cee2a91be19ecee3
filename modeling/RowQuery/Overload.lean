import RowQuery.Promotion

/-!
The choice among overloads. A candidate is applicable if every argument can be promoted to its
parameter; it wins if it is better than every other applicable one, which means a better conversion for
some argument and a worse one for none.
-/

namespace RowQuery

namespace Catalog

/-- How two types compare as targets for a value of the source type: the greater one is the better
conversion. The type itself is best, then the one compatible with the other, then the signed one. -/
def compareConversions (cat : Catalog) (source a b : Ty) : Ordering :=
  if a = b then .eq
  else if source = a then .gt
  else if source = b then .lt
  else
    match cat.isCompatible a b, cat.isCompatible b a with
    | true, false => .gt
    | false, true => .lt
    | _, _ =>
      if a.isSigned && b.isUnsigned then .gt
      else if b.isSigned && a.isUnsigned then .lt
      else .eq

end Catalog

/-- A candidate that can be applied: its place among the candidates, its parameters, and the arguments
promoted to them. -/
structure Applicable where
  index : Nat
  params : List Ty
  args : List Expr

/-- The outcome of a choice. -/
inductive Resolution where
  | noMatch
  | found (choice : Applicable)
  /-- Several candidates, none of them better than all others. -/
  | ambiguous (count : Nat)

namespace Overload

/-- How the two parameters compare for each argument. -/
def comparisons (cat : Catalog) (args : List Expr) (a b : List Ty) : List Ordering :=
  (args.zip (a.zip b)).map fun (arg, p, q) => cat.compareConversions arg.ty p q

/-- Whether one list of parameters takes the arguments better than another. -/
def isBetter (cat : Catalog) (args : List Expr) (a b : List Ty) : Bool :=
  let order := comparisons cat args a b
  !order.contains .lt && order.contains .gt

/-- The arguments promoted to a list of parameters, if they all can be. -/
def promoteAll? (cat : Catalog) : List Expr → List Ty → Option (List Expr)
  | [], [] => some []
  | arg :: args, param :: params => do
    let first ← cat.promote? arg param false
    let rest ← promoteAll? cat args params
    return first :: rest
  | _, _ => none

/-- The candidates that can be applied. -/
def applicable (cat : Catalog) (candidates : List (List Ty)) (args : List Expr) : List Applicable :=
  candidates.zipIdx.filterMap fun (params, index) =>
    (promoteAll? cat args params).map fun promoted => ⟨index, params, promoted⟩

/-- The applicable candidates that are better than every other one. -/
def winners (cat : Catalog) (args : List Expr) (found : List Applicable) : List Applicable :=
  found.filter fun m => found.all fun n => m.index == n.index || isBetter cat args m.params n.params

/-- The best candidate for some arguments. -/
def resolve (cat : Catalog) (candidates : List (List Ty)) (args : List Expr) : Resolution :=
  let found := applicable cat candidates args
  match winners cat args found with
  | [one] => .found one
  | [] => if found.isEmpty then .noMatch else .ambiguous found.length
  | many => .ambiguous many.length

/-- The best of some members for some arguments, with the promoted arguments. -/
inductive MemberChoice (α : Type) where
  | none
  | found (member : α) (args : List Expr)
  | ambiguous

/-- The best member of a list, each with its parameters. -/
def choose {α : Type} (cat : Catalog) (params : α → List Ty) (members : List α) (args : List Expr) :
    MemberChoice α :=
  match resolve cat (members.map params) args with
  | .noMatch => .none
  | .ambiguous _ => .ambiguous
  | .found choice =>
    match members[choice.index]? with
    | some member => .found member choice.args
    | none => .none

/-- The best member of the first level that has one, or that cannot decide. -/
def chooseLevel {α : Type} (cat : Catalog) (params : α → List Ty) (args : List Expr) :
    List (List α) → MemberChoice α
  | [] => .none
  | level :: levels =>
    match choose cat params level args with
    | .none => chooseLevel cat params args levels
    | choice => choice

end Overload

namespace Signatures

/-- Some types and their nullable forms. -/
def withNullable (types : List Ty) : List Ty := types ++ types.map .nullable

def unary (types : List Ty) : List (List Ty) := types.map fun t => [t]

def binary (types : List Ty) : List (List Ty) := types.map fun t => [t, t]

def arithmeticTypes : List Ty :=
  withNullable [.int32, .uint32, .int64, .uint64, .single, .double, .decimal]

def relationalTypes : List Ty :=
  arithmeticTypes ++ [.string] ++ withNullable [.char, .dateTime, .timeSpan]

def logical : List (List Ty) := binary (withNullable [.boolean])

def arithmetic : List (List Ty) := binary arithmeticTypes

def relational : List (List Ty) := binary relationalTypes

def equality : List (List Ty) := binary (relationalTypes ++ withNullable [.boolean])

/-- A span added to or taken from a moment or a span. -/
def dates : List (List Ty) :=
  [[.dateTime, .timeSpan], [.nullable .dateTime, .nullable .timeSpan], [.timeSpan, .timeSpan],
   [.nullable .timeSpan, .nullable .timeSpan]]

def add : List (List Ty) := arithmetic ++ dates

def subtract : List (List Ty) :=
  add ++ [[.dateTime, .dateTime], [.nullable .dateTime, .nullable .dateTime]]

def negation : List (List Ty) := unary (withNullable [.int32, .int64, .single, .double, .decimal])

def not : List (List Ty) := unary (withNullable [.boolean])

/-- The overloads of the aggregates with the types of their arguments. -/
def aggregates : List (AggregateOp × List Ty) :=
  let summable := withNullable [.int32, .int64, .single, .double, .decimal]
  [(.filter, [.boolean]), (.any, []), (.any, [.boolean]), (.all, [.boolean]), (.count, []),
   (.count, [.boolean]), (.min, [.object]), (.max, [.object])] ++
    summable.map (fun t => (.sum, [t])) ++ summable.map (fun t => (.average, [t]))

/-- The overloads of the aggregate of that name, in any case. -/
def aggregatesNamed (name : String) : List (AggregateOp × List Ty) :=
  aggregates.filter fun (op, _) => Text.sameName op.name name

end Signatures

end RowQuery
