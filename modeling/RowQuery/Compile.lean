import RowQuery.Grammar

/-!
Compilation: from the text of an expression, its parameters and the values supplied with it to a typed
expression. Positional arguments are named by their numbers; a last argument may bring names of its own.
-/

namespace RowQuery

/-- A parameter to be declared; the implicit one has no name. -/
structure ParamDecl where
  name : Option String
  ty : Ty

/-- A value supplied with the text: with the type it has by itself or with a given one, a compiled
expression, or a number of named values. -/
inductive Argument where
  | value (v : Value)
  | typed (v : Value) (ty : Ty)
  | lambda (l : Lambda)
  | named (values : List (String × Value))

/-- What expressions are compiled against: the declared classes and the types they may name. -/
structure Environment where
  catalog : Catalog
  context : Context

/-- A computation that may make shapes and may fail; what it made stays made. -/
abbrev Shaping (ε : Type) := ExceptT ε (StateM Shapes)

/-- The symbols of a text by their names in small letters. -/
abbrev Symbols := List (String × Symbol)

namespace Symbols

/-- Adds a symbol whose name is not taken. -/
def insert (symbols : Symbols) (name : String) (s : Symbol) : Except Fault Symbols :=
  if (symbols.lookup (Text.fold name)).isSome then .error (.duplicateIdentifier name)
  else .ok (symbols ++ [(Text.fold name, s)])

/-- Adds the parameters that have names. -/
def insertParams (symbols : Symbols) (params : List Param) : Except Fault Symbols :=
  params.foldlM (fun symbols p =>
    match p.name with
    | some name => symbols.insert name (.expr (.param p.ty p.slot))
    | none => .ok symbols) symbols

/-- Adds values, each under its own name, in the order of the names. -/
def insertValues (symbols : Symbols) (values : List (String × Value)) : Except Fault Symbols :=
  (values.mergeSort fun a b => a.1 ≤ b.1).foldlM (fun symbols (name, v) =>
    symbols.insert name (.expr (.constant v.naturalType v))) symbols

/-- Adds arguments from a position on. -/
def insertArguments (symbols : Symbols) (position : Nat) : List Argument → Except Fault Symbols
  | [] => .ok symbols
  | [.named values] => symbols.insertValues values
  | .named _ :: _ => .error .namedValuesNotLast
  | arg :: args => do
    let name := "@" ++ toString position
    let symbols ← match arg with
      | .value v => symbols.insert name (.expr (.constant v.naturalType v))
      | .typed v ty => symbols.insert name (.expr (.constant ty v))
      | .lambda l => symbols.insert name (.lambda l)
      | .named _ => .ok symbols
    symbols.insertArguments (position + 1) args

/-- What the names of a text stand for: its parameters, then its arguments. -/
def ofText (params : List Param) (args : List Argument) : Except Fault Symbols := do
  let symbols ← insertParams [] params
  symbols.insertArguments 0 args

end Symbols

namespace Environment

/-- The parameters in slots of their own. -/
def bindParams (params : List ParamDecl) : List Param :=
  params.zipIdx.map fun (p, slot) => ⟨p.name, p.ty, slot⟩

/-- The implicit parameter: the only one, if it has no name. -/
def implicit? : List Param → Option Expr
  | [⟨none, ty, slot⟩] => some (.param ty slot)
  | _ => none

/-- The scope of a text. -/
def scope (env : Environment) (params : List Param) (symbols : Symbols) : Scope :=
  ⟨env.catalog, env.context, symbols, implicit? params⟩

/-- The state before a text is read. -/
def start (params : List Param) (text : String) (shapes : Shapes) : Reading :=
  let s := scan text
  ⟨⟨.done, "", 0⟩, s.tokens, s.stop, params.length, shapes⟩

/-- Reads a text with parameters and arguments, and says how many slots it needs. -/
def reading {α : Type} (env : Environment) (params : List Param) (args : List Argument) (text : String)
    (phrase : Parse α) : Shaping CompileError (α × Nat) := fun shapes =>
  match Symbols.ofText params args with
  | .error fault => (.error ⟨fault, 0⟩, shapes)
  | .ok symbols =>
    match (do Parse.advance; phrase : Parse α) (env.scope params symbols) (start params text shapes) with
    | (.ok a, after) => (.ok (a, after.slots), after.shapes)
    | (.error e, after) => (.error e, after.shapes)

/-- Compiles an expression with parameters and, if given, a type for its result. -/
def compile (env : Environment) (params : List ParamDecl) (result : Option Ty) (text : String)
    (args : List Argument) : Shaping CompileError Lambda := do
  let bound := bindParams params
  let (body, slots) ← env.reading bound args text (Grammar.whole result)
  return ⟨bound, body, slots⟩

/-- Compiles a condition on elements of a type. -/
def compilePredicate (env : Environment) (element : Ty) (text : String) (args : List Argument) :
    Shaping CompileError Lambda :=
  env.compile [⟨none, element⟩] (some .boolean) text args

/-- Compiles a function of elements of a type. -/
def compileProjection (env : Environment) (element : Ty) (text : String) (args : List Argument) :
    Shaping CompileError Lambda :=
  env.compile [⟨none, element⟩] none text args

/-- Compiles the keys of an ordering of elements of a type. The keys share one set of slots. -/
def compileOrdering (env : Environment) (element : Ty) (text : String) (args : List Argument) :
    Shaping CompileError (List SortKey) := do
  let bound := bindParams [⟨none, element⟩]
  let (keys, slots) ← env.reading bound args text Grammar.ordering
  return keys.map fun (body, ascending) => ⟨⟨bound, body, slots⟩, ascending⟩

end Environment

end RowQuery
