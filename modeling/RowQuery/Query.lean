import RowQuery.Compile
import RowQuery.Evaluation

/-!
Queries over rows in memory. A query holds rows and the type of each; an operation compiles its text
against that type and gives a new query, or fails and leaves the query as it was.
-/

namespace RowQuery

/-- Rows and their type. -/
structure Query where
  element : Ty
  rows : List Value

/-- A failure of a query: a text that is empty, that is faulty, or that fails on a row. -/
inductive QueryError where
  | emptyText (what : String)
  | compile (e : CompileError)
  | eval (e : EvalError)

def QueryError.message (shapes : Shapes) : QueryError → String
  | emptyText what => "invalid argument: " ++ what ++ " expression must not be empty"
  | compile e => e.message shapes
  | eval e => e.message shapes

namespace Query

/-- A computation on a query, which may make shapes. -/
abbrev Step := Shaping QueryError

/-- Compiles a text that is not blank. -/
def compiling {α : Type} (what text : String) (compiler : Shaping CompileError α) : Step α :=
  if Text.isBlankText text then throw (.emptyText what)
  else ExceptT.adapt QueryError.compile compiler

/-- What evaluation says. -/
def evaluated {α : Type} : Except EvalError α → Step α
  | .ok a => pure a
  | .error e => throw (.eval e)

/-- The rows that satisfy a compiled condition. -/
def kept (cat : Catalog) (l : Lambda) (rows : List Value) : Except EvalError (List Value) :=
  rows.filterM fun row => cat.evalPredicate l [row]

/-- The rows that satisfy a condition. -/
def filter (env : Environment) (q : Query) (text : String) (args : List Argument) : Step Query := do
  let l ← compiling "predicate" text (env.compilePredicate q.element text args)
  return { q with rows := ← evaluated (kept env.catalog l q.rows) }

/-- The values of an expression for each row. -/
def select (env : Environment) (q : Query) (text : String) (args : List Argument) : Step Query := do
  let l ← compiling "selector" text (env.compileProjection q.element text args)
  return ⟨l.resultType, ← evaluated (q.rows.mapM fun row => env.catalog.evalLambda l [row])⟩

/-- A row with the values of the keys for it. -/
structure Keyed where
  keys : List Value
  row : Value

/-- A comparison of keys and the first failure met so far; keys that cannot be compared count as
equal. -/
abbrev Sorting := StateM (Option EvalError)

/-- Compares two values, noting a failure. -/
def compareNoting (a b : Value) : Sorting Ordering := fun failure =>
  match a.compare b with
  | .ok order => (order, failure)
  | .error e => (.eq, failure.or (some e))

/-- Compares the keys of two rows: the first difference decides. -/
def compareKeys : List Bool → List Value → List Value → Sorting Ordering
  | ascending :: directions, a :: as, b :: bs => do
    let order ← compareNoting a b
    let directed := if ascending then order else order.swap
    if directed = .eq then compareKeys directions as bs else return directed
  | _, _, _ => return .eq

/-- Puts a row behind those that do not come after it, in rows ordered backward. -/
def insertRow (directions : List Bool) (x : Keyed) : List Keyed → Sorting (List Keyed)
  | [] => return [x]
  | y :: ys => do
    if (← compareKeys directions x.keys y.keys) = .lt then
      return y :: (← insertRow directions x ys)
    else return x :: y :: ys

/-- Orders rows by their keys; rows with equal keys stay in place. -/
def sortRows (directions : List Bool) (rows : List Keyed) : Sorting (List Keyed) := do
  return (← rows.foldlM (fun sorted x => insertRow directions x sorted) []).reverse

/-- The rows with their keys. -/
def keyed (cat : Catalog) (keys : List SortKey) (rows : List Value) :
    Except EvalError (List Keyed) :=
  rows.mapM fun row => do
    return ⟨← keys.mapM fun key => cat.evalLambda key.selector [row], row⟩

/-- The rows in the order of some keys. -/
def sorted (cat : Catalog) (keys : List SortKey) (rows : List Value) :
    Except EvalError (List Value) := do
  let (rows, failure) := (sortRows (keys.map (·.ascending)) (← keyed cat keys rows)).run none
  match failure with
  | some e => throw e
  | none => return rows.map (·.row)

/-- The rows in the order that a text describes. -/
def orderBy (env : Environment) (q : Query) (text : String) (args : List Argument) : Step Query := do
  let keys ← compiling "ordering" text (env.compileOrdering q.element text args)
  return { q with rows := ← evaluated (sorted env.catalog keys q.rows) }

/-- Adds an item to the first group with an equal key, or makes a group for it. -/
def addToGroup (key item : Value) : List (Value × List Value) → List (Value × List Value)
  | [] => [(key, [item])]
  | (k, items) :: groups =>
    if k.equal key then (k, items ++ [item]) :: groups else (k, items) :: addToGroup key item groups

/-- The groups of rows with equal keys, in the order of their first rows. -/
def grouped (cat : Catalog) (key : Lambda) (item : Option Lambda) (rows : List Value) :
    Except EvalError (List (Value × List Value)) :=
  rows.foldlM (fun groups row => do
    let k ← cat.evalLambda key [row]
    let i ← match item with
      | some l => cat.evalLambda l [row]
      | none => pure row
    return addToGroup k i groups) []

/-- The groups of rows by a key; each holds the rows, or the values of an expression for them. -/
def groupBy (env : Environment) (q : Query) (text : String) (item : Option String)
    (args : List Argument) : Step Query := do
  let key ← compiling "key" text (env.compileProjection q.element text args)
  let item ← match item with
    | some text => some <$> compiling "element" text (env.compileProjection q.element text args)
    | none => pure none
  let groups ← evaluated (grouped env.catalog key item q.rows)
  let itemType := (item.map (·.resultType)).getD q.element
  return ⟨.grouping key.resultType itemType, groups.map fun (k, items) => .group k items⟩

/-- The first rows. -/
def take (q : Query) (n : Nat) : Query := { q with rows := q.rows.take n }

/-- The rows after the first ones. -/
def skip (q : Query) (n : Nat) : Query := { q with rows := q.rows.drop n }

/-- The number of rows, or of those that satisfy a condition. -/
def count (env : Environment) (q : Query) (text : Option String) (args : List Argument) : Step Nat := do
  match text with
  | none => return q.rows.length
  | some text => return (← q.filter env text args).rows.length

/-- Whether there are rows, or rows that satisfy a condition. -/
def any (env : Environment) (q : Query) (text : Option String) (args : List Argument) :
    Step Bool := do
  return (← q.count env text args) != 0

/-- The first row. -/
def first? (q : Query) : Option Value := q.rows.head?

end Query

end RowQuery
