import RowQuery.Command
import RowQuery.Query
import RowQuery.RowData

/-!
What the commands do, given the contents of files: rows are filtered, ordered, grouped, projected and
cut in this order, or an expression is compiled and its type reported. The first failure ends the run.
-/

namespace RowQuery

/-- What a run leaves: its exit code and what it wrote. -/
structure Run where
  exit : Nat
  stdout : String
  stderr : String

/-- The contents of files by their paths, or the reason why there are none. -/
abbrev Files := String → Except String String

namespace Reporting

/-- The end of a run that failed with a message. -/
def failure (r : Reporting) (message : String) : Run :=
  let line := match r.output with
    | .text => message
    | .json => (Json.ofFields [("error", .string message)]).text
  ⟨1, "", if r.quiet then "" else line ++ "\n"⟩

/-- A fault as data: its name, with its particulars if it has some. -/
def faultJson (shapes : Shapes) (fault : Fault) : Json :=
  match (fault.details shapes).map Json.string with
  | [] => .string fault.name
  | [detail] => .ofFields [(fault.name, detail)]
  | details => .ofFields [(fault.name, .array details)]

/-- A faulty expression as data. -/
def compileErrorJson (shapes : Shapes) (expression : String) (e : CompileError) : Json :=
  .ofFields
    [("expression", .string expression),
     ("error", .ofFields
       [("message", .string (e.fault.message shapes)), ("position", .int e.position),
        ("kind", faultJson shapes e.fault)])]

/-- The number of characters whose place in the encoded text is before a position. -/
def caretOffset (position : Nat) : Nat → List Char → Nat
  | _, [] => 0
  | start, c :: cs => if start < position then caretOffset position (start + c.utf8Size) cs + 1 else 0

/-- A faulty expression on lines of text, with a mark under it. -/
def compileErrorText (shapes : Shapes) (expression : String) (e : CompileError) : String :=
  let spaces := String.ofList (List.replicate (caretOffset e.position 0 expression.toList) ' ')
  "error: " ++ e.message shapes ++ "\n  " ++ expression ++ "\n  " ++ spaces ++ "^"

/-- The end of a run that met a faulty expression. -/
def compileFailure (r : Reporting) (shapes : Shapes) (expression : String) (e : CompileError) : Run :=
  let report := match r.output with
    | .text => compileErrorText shapes expression e
    | .json => (compileErrorJson shapes expression e).text
  ⟨1, "", if r.quiet then "" else report ++ "\n"⟩

end Reporting

namespace Command

/-- A run in progress, which may end. -/
abbrev Running := Shaping Run

/-- Goes on with a result, or ends the run with a message. -/
def orFail {ε α : Type} (r : Reporting) (message : ε → String) : Except ε α → Running α
  | .ok a => pure a
  | .error e => throw (r.failure ("error: " ++ message e))

/-- The contents of a file. -/
def readFile (files : Files) (path : String) : Except SchemaError String :=
  (files path).mapError (.unreadable path)

def loadSchema (files : Files) (path : String) : Except SchemaError Schema := do
  Schema.parse (← readFile files path)

def loadRows (files : Files) (schema : Schema) (path : String) : Except SchemaError (List Value) := do
  match Json.parse? (← readFile files path) with
  | some v => v.rows schema.catalog schema.element
  | none => throw (.json path)

/-- What can be wrong with a supplied value. -/
inductive ArgumentError where
  | notJson (text : String)
  | notNamed (text : String)

def ArgumentError.message : ArgumentError → String
  | notJson text => "invalid argument '" ++ text ++ "': not a value in the JSON format"
  | notNamed text => "named argument '" ++ text ++ "' is not name=JSON"

/-- A supplied value. -/
def argumentValue (text : String) : Except ArgumentError Value :=
  match Json.parse? text with
  | some v => .ok v.infer
  | none => .error (.notJson text)

/-- A supplied value with its name. -/
def namedValue (text : String) : Except ArgumentError (String × Value) :=
  match text.toList.dropWhile (· != '=') with
  | [] => .error (.notNamed text)
  | _ :: value => do
    let name := Text.trim (String.ofList (text.toList.takeWhile (· != '=')))
    return (name, ← argumentValue (String.ofList value))

/-- The supplied values; the named ones come last. -/
def arguments (texts : ArgumentTexts) : Except ArgumentError (List Argument) := do
  let positional ← texts.positional.mapM argumentValue
  let named ← texts.named.mapM namedValue
  return positional.map .value ++ if named.isEmpty then [] else [.named (Named.ofList named)]

/-- Goes on with the query that a step gives, or ends the run with a report on an expression. -/
def stage (r : Reporting) (expression : String) (step : Query.Step Query) : Running Query := fun shapes =>
  match step shapes with
  | (.ok q, shapes) => (.ok q, shapes)
  | (.error (.compile e), shapes) => (.error (r.compileFailure shapes expression e), shapes)
  | (.error e, shapes) => (.error (r.failure ("error: " ++ e.message shapes)), shapes)

/-- A step that is taken only if there is a text for it. -/
def optionalStage (r : Reporting) (text : Option String) (step : String → Query.Step Query) (q : Query) :
    Running Query :=
  match text with
  | some text => stage r text (step text)
  | none => pure q

/-- The expression that is to blame if grouping fails: the one for the items if the key compiles. -/
def groupingText (env : Environment) (q : Query) (key : String) (item : Option String)
    (args : List Argument) (shapes : Shapes) : String :=
  match item, (env.compileProjection q.element key args shapes).1 with
  | some item, .ok _ => item
  | _, _ => key

/-- Groups the rows if there is a key. -/
def groupStage (r : Reporting) (env : Environment) (o : QueryOptions) (args : List Argument)
    (q : Query) : Running Query := do
  match o.groupBy with
  | some key =>
    let text := groupingText env q key o.groupSelect args (← get)
    stage r text (q.groupBy env key o.groupSelect args)
  | none => return q

/-- A row on a line: simple values as text, others as data. -/
def rowText (cat : Catalog) (row : Value) : String :=
  match row with
  | .object _ _ _ | .list _ | .group _ _ => (row.toJson cat).text
  | row => row.text

/-- The lines of a text. -/
def lines (texts : List String) : String := String.join (texts.map (· ++ "\n"))

/-- The report on the rows of a query. -/
def report (r : Reporting) (cat : Catalog) (count : Bool) (q : Query) (shapes : Shapes) : Run :=
  let n := q.rows.length
  match count, r.output with
  | true, .json => ⟨0, lines [(Json.ofFields [("count", .int n)]).text], ""⟩
  | true, .text => ⟨0, lines [toString n], ""⟩
  | false, .json => ⟨0, lines [(Json.array (q.rows.map (·.toJson cat))).pretty], ""⟩
  | false, .text =>
    let summary := toString n ++ " row(s) of " ++ q.element.text shapes
    ⟨0, lines (q.rows.map (rowText cat)), if r.quiet then "" else lines [summary]⟩

/-- Runs a query. -/
def runQuery (r : Reporting) (files : Files) (o : QueryOptions) : Running Run := do
  let schema ← orFail r SchemaError.message (loadSchema files o.schema)
  let rows ← orFail r SchemaError.message (loadRows files schema o.data)
  let args ← orFail r ArgumentError.message (arguments o.arguments)
  let env : Environment := ⟨schema.catalog, schema.context⟩
  let q ← o.filters.foldlM (fun (q : Query) text => stage r text (q.filter env text args))
    ⟨schema.element, rows⟩
  let q ← optionalStage r o.orderBy (q.orderBy env · args) q
  let q ← groupStage r env o args q
  let q ← optionalStage r o.select (q.select env · args) q
  let q := (o.skip.map q.skip).getD q
  let q := (o.take.map q.take).getD q
  return report r env.catalog o.count q (← get)

/-- The types of what an expression compiles to, with the directions of keys. -/
def compiledTypes (env : Environment) (element : Ty) (o : CheckOptions) (args : List Argument) :
    Shaping CompileError (List (Ty × Option Bool)) := do
  match o.kind with
  | .predicate => return [((← env.compilePredicate element o.expression args).resultType, none)]
  | .projection => return [((← env.compileProjection element o.expression args).resultType, none)]
  | .ordering =>
    let keys ← env.compileOrdering element o.expression args
    return keys.map fun key => (key.selector.resultType, some key.ascending)

/-- A type on a line, with the direction of a key. -/
def typeLine (shapes : Shapes) : Ty × Option Bool → String
  | (ty, none) => ty.text shapes
  | (ty, some true) => ty.text shapes ++ " ascending"
  | (ty, some false) => ty.text shapes ++ " descending"

/-- A type as data, with the direction of a key. -/
def typeJson (shapes : Shapes) : Ty × Option Bool → Json
  | (ty, none) => .ofFields [("type", .string (ty.text shapes))]
  | (ty, some ascending) =>
    .ofFields [("type", .string (ty.text shapes)), ("ascending", .bool ascending)]

/-- The report on a compiled expression. -/
def checkReport (r : Reporting) (element : Ty) (expression : String) (types : List (Ty × Option Bool))
    (shapes : Shapes) : Run :=
  let text := match r.output with
    | .text => lines (types.map (typeLine shapes))
    | .json =>
      lines [(Json.ofFields
        [("expression", .string expression), ("element", .string (element.text shapes)),
         ("result", .array (types.map (typeJson shapes)))]).pretty]
  ⟨0, if r.quiet then "" else text, ""⟩

/-- Checks an expression. -/
def runCheck (r : Reporting) (files : Files) (o : CheckOptions) : Running Run := do
  let schema ← orFail r SchemaError.message (loadSchema files o.schema)
  let args ← orFail r ArgumentError.message (arguments o.arguments)
  let env : Environment := ⟨schema.catalog, schema.context⟩
  fun shapes =>
    match compiledTypes env schema.element o args shapes with
    | (.ok types, shapes) => (.ok (checkReport r schema.element o.expression types shapes), shapes)
    | (.error e, shapes) => (.error (r.compileFailure shapes o.expression e), shapes)

/-- The paths of the files that a command reads. -/
def paths : Command → List String
  | .query o => [o.schema, o.data]
  | .check o => [o.schema]

/-- Runs a command. -/
def run (r : Reporting) (files : Files) (c : Command) : Run :=
  let running := match c with
    | .query o => runQuery r files o
    | .check o => runCheck r files o
  match (running .empty).1 with
  | .ok done => done
  | .error ended => ended

/-- The end of a run whose command line could not be understood. -/
def usage : Run := ⟨2, "", "usage: query|check --schema FILE ...\n"⟩

end Command

end RowQuery
