import RowQuery.Integer

/-!
The command line: what can be asked for and how it is written. Options are written `--name value` or
`--name=value`; those for all commands may stand before the command or after it.
-/

namespace RowQuery

inductive OutputFormat where
  | text
  | json
deriving DecidableEq

/-- What an expression is compiled as. -/
inductive ExpressionKind where
  | predicate
  | projection
  | ordering
deriving DecidableEq

/-- How results and failures are reported. -/
structure Reporting where
  output : OutputFormat
  quiet : Bool

/-- The values supplied with expressions: positional ones and named ones, as they are written. -/
structure ArgumentTexts where
  positional : List String
  named : List String

/-- A query over the rows of a file. -/
structure QueryOptions where
  schema : String
  data : String
  filters : List String
  orderBy : Option String
  groupBy : Option String
  groupSelect : Option String
  select : Option String
  skip : Option Nat
  take : Option Nat
  count : Bool
  arguments : ArgumentTexts

/-- An expression to be compiled against a schema. -/
structure CheckOptions where
  schema : String
  expression : String
  kind : ExpressionKind
  arguments : ArgumentTexts

inductive Command where
  | query (options : QueryOptions)
  | check (options : CheckOptions)

namespace Command

/-- A part of a command line. -/
inductive Part where
  | option (name value : String)
  | flag (name : String)
  | word (text : String)
deriving DecidableEq

/-- How an option is written: with a value, once or repeatedly, or without one. -/
inductive Form where
  | single
  | repeated
  | flag
  | counted
deriving DecidableEq

/-- The options of some part of a command line. -/
abbrev Table := List (String × Form)

/-- The options for all commands. -/
def sharedTable : Table := [("output", .single), ("quiet", .flag), ("verbose", .counted)]

def queryTable : Table :=
  [("schema", .single), ("data", .single), ("where", .repeated), ("order-by", .single),
   ("group-by", .single), ("group-select", .single), ("select", .single), ("skip", .single),
   ("take", .single), ("count", .flag), ("arg", .repeated), ("named", .repeated)]

def checkTable : Table :=
  [("schema", .single), ("kind", .single), ("arg", .repeated), ("named", .repeated)]

/-- Whether a word can stand as the value of an option. -/
def isValue (word : String) : Bool := word.toList.head? != some '-' || word == "-"

/-- The name of a long option and the value written with it. -/
def splitLong (cs : List Char) : String × Option String :=
  let name := String.ofList (cs.takeWhile (· != '='))
  match cs.dropWhile (· != '=') with
  | [] => (name, none)
  | _ :: value => (name, some (String.ofList value))

/-- The part that a word is, given the word after it, and whether it takes that one up; none if it is
an option that is unknown or not written as it should be. -/
def part? (table : Table) (word : String) (next : Option String) : Option (Part × Bool) :=
  match word.toList with
  | '-' :: '-' :: cs =>
    let (name, attached) := splitLong cs
    match table.lookup name, attached with
    | none, _ => none
    | some .flag, none | some .counted, none => some (.flag name, false)
    | some .flag, some _ | some .counted, some _ => none
    | some _, some value => some (.option name value, false)
    | some _, none =>
      match next with
      | some value => if isValue value then some (.option name value, true) else none
      | none => none
  | '-' :: c :: cs => if (c :: cs).all (· == 'v') then some (.flag "verbose", false) else none
  | _ => some (.word word, false)

/-- The parts of a command line. After a bare double dash everything is a word. -/
def parts? (table : Table) : List String → Option (List Part)
  | [] => some []
  | word :: rest =>
    if word = "--" then some (rest.map .word)
    else
      match part? table word rest.head?, rest with
      | some (p, true), _ :: rest => (parts? table rest).map (p :: ·)
      | some (p, false), rest => (parts? table rest).map (p :: ·)
      | _, _ => none

/-- The options before the command, the command, and what follows it. -/
def split? : List String → Option (List Part × String × List String)
  | [] => none
  | word :: rest =>
    if isValue word then some ([], word, rest)
    else
      match part? sharedTable word rest.head?, rest with
      | some (p, true), _ :: rest => (split? rest).map fun (ps, found) => (p :: ps, found)
      | some (p, false), rest => (split? rest).map fun (ps, found) => (p :: ps, found)
      | _, _ => none

/-- The values of an option. -/
def values (parts : List Part) (name : String) : List String :=
  parts.filterMap fun
    | .option n v => if n = name then some v else none
    | _ => none

/-- The words among the parts. -/
def words (parts : List Part) : List String :=
  parts.filterMap fun
    | .word w => some w
    | _ => none

/-- The number of times that an option is given. -/
def occurrences (parts : List Part) (name : String) : Nat :=
  (values parts name).length + parts.count (.flag name)

/-- Whether no option is given more often than it may be. -/
def isUnrepeated (table : Table) (parts : List Part) : Bool :=
  table.all fun (name, form) => form == .repeated || form == .counted || occurrences parts name ≤ 1

/-- A value that is one of some words, or the default if there is none. -/
def chosen? {α : Type} (choices : List (String × α)) (default : α) : Option String → Option α
  | none => some default
  | some word => choices.lookup word

/-- A number that may be left out. -/
def number? : Option String → Option (Option Nat)
  | none => some none
  | some text => (Word.read? .uint64 text).map fun n => some n.val.toNat

/-- A path, which may not be empty. -/
def path? (value : Option String) : Option String := value.filter fun path => !path.isEmpty

def argumentTexts (parts : List Part) : ArgumentTexts := ⟨values parts "arg", values parts "named"⟩

/-- Reads the options of a query. -/
def query? (parts : List Part) : Option Command := do
  let value (name : String) : Option String := (values parts name).head?
  if !(words parts).isEmpty then none
  if (value "group-select").isSome && (value "group-by").isNone then none
  return .query
    { schema := ← path? (value "schema")
      data := ← path? (value "data")
      filters := values parts "where"
      orderBy := value "order-by"
      groupBy := value "group-by"
      groupSelect := value "group-select"
      select := value "select"
      skip := ← number? (value "skip")
      take := ← number? (value "take")
      count := parts.contains (.flag "count")
      arguments := argumentTexts parts }

/-- Reads the options of a check. -/
def check? (parts : List Part) : Option Command := do
  match words parts with
  | [expression] =>
    let kinds := [("predicate", .predicate), ("projection", .projection), ("ordering", .ordering)]
    return .check
      { schema := ← path? (values parts "schema").head?
        expression
        kind := ← chosen? kinds .predicate (values parts "kind").head?
        arguments := argumentTexts parts }
  | _ => none

/-- How to report, from the options before the command and after it; the later ones count. -/
def reporting? (before after : List Part) : Option Reporting := do
  let outputs := values after "output" ++ values before "output"
  let formats : List (String × OutputFormat) := [("text", .text), ("json", .json)]
  if (values before "output").any fun word => (formats.lookup word).isNone then none
  return ⟨← chosen? formats .text outputs.head?, (before ++ after).contains (.flag "quiet")⟩

/-- Reads a command line; none if it cannot be understood. -/
def parse? (argv : List String) : Option (Reporting × Command) := do
  let (before, name, rest) ← split? argv
  let (table, read) ← match name with
    | "query" => some (queryTable, query?)
    | "check" => some (checkTable, check?)
    | _ => none
  let after ← parts? (sharedTable ++ table) rest
  if !isUnrepeated sharedTable before || !isUnrepeated (sharedTable ++ table) after then none
  return (← reporting? before after, ← read after)

end Command

end RowQuery
