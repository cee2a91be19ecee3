import RowQuery.Catalog
import RowQuery.Json
import RowQuery.Text.Blank
import RowQuery.Toml.Reader

/-!
Schemas: the enumerations and classes that rows are made of, declared in a TOML document, and the type
of the rows. A class may refer to enumerations and to classes declared before it.
-/

namespace RowQuery

/-- What was wanted of a JSON value. -/
inductive Expected where
  | ty (t : Ty)
  | rows

/-- What can be wrong with a schema or with the rows it describes. -/
inductive SchemaError where
  | unreadable (path reason : String)
  | toml
  | json (path : String)
  | unknownType (name : String)
  | duplicateType (name : String)
  | invalidValue (path : String) (expected : Expected) (found : Json)

/-- What was wanted, in words. -/
def Expected.text : Expected → String
  | ty t => t.text .empty
  | rows => "an array of rows"

/-- A JSON value in words: itself if it is short. -/
def Json.summary : Json → String
  | .string s => "\"" ++ s ++ "\""
  | .array _ => "an array"
  | .object _ => "an object"
  | v => v.text

def SchemaError.message : SchemaError → String
  | unreadable path reason => "error reading '" ++ path ++ "': " ++ reason
  | toml => "invalid schema: not a schema in the TOML format"
  | json path => "invalid JSON in '" ++ path ++ "': not a value in the JSON format"
  | unknownType name => "unknown type '" ++ name ++ "'"
  | duplicateType name => "type '" ++ name ++ "' is declared more than once"
  | invalidValue path expected found =>
    path ++ ": expected " ++ expected.text ++ ", found " ++ found.summary

/-- A schema: the type of the rows, the declared types in order, and the classes among them. -/
structure Schema where
  element : Ty
  types : List Ty
  catalog : Catalog

namespace Schema

/-- An enumeration as it is written. -/
structure EnumEntry where
  name : String
  members : List String

/-- A class as it is written: its name, and the names and types of its fields. -/
structure ClassEntry where
  name : String
  fields : List (String × String)

/-- The content of a schema. -/
structure Document where
  element : String
  enums : List EnumEntry
  classes : List ClassEntry

/-- A text that has to be there. -/
def text? (v : Toml) (name : String) (position : Nat) : Option String := do
  let part ← v.part? name position
  (← part).string?

/-- A list that may be left out. -/
def optionalItems? (v : Toml) (name : String) (position : Nat) : Option (List Toml) := do
  match ← v.part? name position with
  | some part => part.items?
  | none => some []

def enumEntry? (v : Toml) : Option EnumEntry := do
  let members ← (← v.part? "members" 1).bind Toml.items?
  return ⟨← text? v "name" 0, ← members.mapM Toml.string?⟩

def fieldEntry? (v : Toml) : Option (String × String) := do
  return (← text? v "name" 0, ← text? v "type" 1)

def classEntry? (v : Toml) : Option ClassEntry := do
  return ⟨← text? v "name" 0, ← (← optionalItems? v "fields" 1).mapM fieldEntry?⟩

/-- The content of a TOML document. Keys that a schema does not have are passed over. -/
def document? (text : String) : Option Document := do
  let v ← Toml.parse? text
  let enums ← (← optionalItems? v "enums" 1).mapM enumEntry?
  let classes ← (← optionalItems? v "classes" 2).mapM classEntry?
  return ⟨← text? v "element" 0, enums, classes⟩

/-- The declared type of that name, in any case. -/
def declared? (types : List Ty) (name : String) : Option Ty :=
  types.find? fun t => ((Context.nameOf? t).map (Text.sameName · name)).getD false

/-- The name between the brackets of a list type. -/
def listElement? (cs : List Char) : Option (List Char) :=
  let rest := cs.drop 5
  if "List<".toList.isPrefixOf cs && rest.getLast? = some '>' then some rest.dropLast else none

theorem listElement?_length {cs inner : List Char} (h : listElement? cs = some inner) :
    inner.length < cs.length := by
  simp only [listElement?] at h
  split at h
  · rename_i hc
    simp only [Bool.and_eq_true, decide_eq_true_eq] at hc
    have nonempty : cs.drop 5 ≠ [] := by
      intro empty
      simp [empty] at hc
    have := List.length_pos_iff.mpr nonempty
    cases h
    simp only [List.length_dropLast, List.length_drop] at this ⊢
    omega
  · simp at h

theorem trimChars_length (cs : List Char) : (Text.trimChars cs).length ≤ cs.length := by
  unfold Text.trimChars
  have outer := (List.dropWhile_sublist (l := (cs.dropWhile Text.isBlank).reverse) Text.isBlank).length_le
  have inner := (List.dropWhile_sublist (l := cs) Text.isBlank).length_le
  simp only [List.length_reverse] at outer ⊢
  omega

/-- The type with a name: a predefined or declared one, its nullable form, or a list. -/
def typeNamed (types : List Ty) (cs : List Char) : Except SchemaError Ty :=
  let name := Text.trimChars cs
  let unknown : SchemaError := .unknownType (String.ofList name)
  if _h : name.getLast? = some '?' then do
    let inner ← typeNamed types name.dropLast
    if inner.isValueType && !inner.isNullable then return .nullable inner else throw unknown
  else
    match _hl : listElement? name with
    | some element => do return .list (← typeNamed types element)
    | none =>
      match Ty.predefined? (String.ofList name) with
      | some (.cls _) => .error unknown
      | some t => .ok t
      | none =>
        match declared? types (String.ofList name) with
        | some t => .ok t
        | none => .error unknown
termination_by cs.length
decreasing_by
  · have trimmed := trimChars_length cs
    have nonempty : Text.trimChars cs ≠ [] := by
      intro empty
      simp [name, empty] at _h
    have := List.length_pos_iff.mpr nonempty
    simp only [List.length_dropLast]
    omega
  · have trimmed := trimChars_length cs
    have := listElement?_length _hl
    simp only [name] at this
    omega

/-- Whether a name can be given to one more type. -/
def isFree (types : List Ty) (name : String) : Bool :=
  (Ty.predefined? name).isNone && (declared? types name).isNone

/-- Declares an enumeration. -/
def declareEnum (types : List Ty) (e : EnumEntry) : Except SchemaError (List Ty) :=
  if isFree types e.name then .ok (types ++ [.enum (.ofNames types.length e.name e.members)])
  else .error (.duplicateType e.name)

/-- Declares a class, whose objects can be made from a value for each field. -/
def declareClass (declared : List Ty × Catalog) (c : ClassEntry) :
    Except SchemaError (List Ty × Catalog) := do
  let (types, cat) := declared
  let fields ← c.fields.mapM fun (name, ty) => do return (name, ← typeNamed types ty.toList)
  let (cat, cls) := cat.build c.name (ClassDecl.Call.ofFields fields)
  if isFree types c.name then return (types ++ [.cls cls], cat) else throw (.duplicateType c.name)

/-- The schema that a document describes. -/
def ofDocument (d : Document) : Except SchemaError Schema := do
  let types ← d.enums.foldlM declareEnum []
  let (types, cat) ← d.classes.foldlM declareClass (types, .empty)
  return ⟨← typeNamed types d.element.toList, types, cat⟩

/-- Reads a schema. -/
def parse (text : String) : Except SchemaError Schema :=
  match document? text with
  | some d => ofDocument d
  | none => .error .toml

/-- The types that expressions over the rows may name. -/
def context (s : Schema) : Context := .ofTypes s.types

end Schema

end RowQuery
