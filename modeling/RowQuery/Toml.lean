/-!
Documents in the TOML format, as the tree that their lines describe. A table is opened once, by a
header or by dotted keys; an array of tables grows by one with each of its headers.
-/

namespace RowQuery

/-- A TOML value. Numbers, truth values and dates are kept as they are written. -/
inductive Toml where
  | string (s : String)
  | plain (text : String)
  | array (items : List Toml)
  | table (entries : List (String × Toml))

namespace Toml

/-- How a table came to be: by a header of its own, as part of the path of another header, or by dotted
keys. -/
inductive Origin where
  | header
  | path
  | dotted
deriving DecidableEq

/-- A part of a document that is still open. -/
inductive Node where
  | value (v : Toml)
  | table (origin : Origin) (entries : List (String × Node))
  | tables (each : List (List (String × Node)))

/-- The entries of an open table. -/
abbrev Entries := List (String × Node)

namespace Entries

/-- Sets an entry, in place of one of the same name if there is one. -/
def put (entries : Entries) (key : String) (node : Node) : Entries :=
  if (entries.lookup key).isSome then entries.map fun (k, n) => if k = key then (k, node) else (k, n)
  else entries ++ [(key, node)]

/-- Changes the table at a path, making those on the way that do not exist. Dotted keys do not enter a
table that has a header. The change is told whether the table was made by dotted keys. -/
def change (dotted : Bool) (f : Bool → Entries → Option Entries) :
    List String → Bool → Entries → Option Entries
  | [], isDotted, entries => f isDotted entries
  | key :: path, _, entries =>
    match entries.lookup key with
    | none => do
      let inner ← change dotted f path dotted []
      return entries.put key (.table (if dotted then .dotted else .path) inner)
    | some (.value _) => none
    | some (.tables each) => do
      let inner ← change dotted f path false (each.getLast?.getD [])
      return entries.put key (.tables (each.dropLast ++ [inner]))
    | some (.table origin inner) =>
      if dotted && origin = .header then none
      else do
        let inner ← change dotted f path (origin == .dotted) inner
        return entries.put key (.table origin inner)

/-- Adds a value under a dotted key that is not taken. -/
def add (entries : Entries) (path : List String) (key : String) (v : Toml) : Option Entries :=
  change true (fun isDotted es =>
    if isDotted = path.isEmpty || (es.lookup key).isSome then none else some (es.put key (.value v)))
    path false entries

/-- Adds values under their dotted keys, from the first to the last. -/
def addAll (entries : Entries) (values : List (List String × String × Toml)) : Option Entries :=
  values.foldlM (fun es (path, key, v) => es.add path key v) entries

/-- Opens a table by a header and fills it. -/
def addTable (entries : Entries) (path : List String) (key : String)
    (values : List (List String × String × Toml)) : Option Entries :=
  change false (fun _ es =>
    match es.lookup key with
    | none => do return es.put key (.table .header (← addAll [] values))
    | some (.table .path inner) => do return es.put key (.table .header (← addAll inner values))
    | _ => none) path false entries

/-- Opens one more table of an array of them and fills it. -/
def addToArray (entries : Entries) (path : List String) (key : String)
    (values : List (List String × String × Toml)) : Option Entries :=
  change false (fun _ es =>
    match es.lookup key with
    | none => do return es.put key (.tables [← addAll [] values])
    | some (.tables each) => do return es.put key (.tables (each ++ [← addAll [] values]))
    | _ => none) path false entries

end Entries

mutual

/-- The value that a finished part of a document stands for. -/
def Node.finish : Node → Toml
  | .value v => v
  | .table _ entries => .table (finishEntries entries)
  | .tables each => .array (finishTables each)

def finishEntries : List (String × Node) → List (String × Toml)
  | [] => []
  | (key, node) :: rest => (key, node.finish) :: finishEntries rest

def finishTables : List (List (String × Node)) → List Toml
  | [] => []
  | entries :: rest => .table (finishEntries entries) :: finishTables rest

end

/-- The text that a value is. -/
def string? : Toml → Option String
  | .string s => some s
  | _ => none

/-- The items of an array. -/
def items? : Toml → Option (List Toml)
  | .array items => some items
  | _ => none

/-- A part of a record that is written as a table, by its name, or as an array, by its position; the
inner result is empty if the part is left out. -/
def part? (v : Toml) (name : String) (position : Nat) : Option (Option Toml) :=
  match v with
  | .table entries => some (entries.lookup name)
  | .array items => some items[position]?
  | _ => none

end Toml

end RowQuery
