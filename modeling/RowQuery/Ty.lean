import RowQuery.Integer
import RowQuery.Text.Fold

/-!
The types of expressions. Enumerations and declared classes are nominal: each declaration is a type of
its own, told apart by its number even from one of the same name. The classes made for projections are
structural instead: a shape is its list of fields, so equal lists are one type.
-/

namespace RowQuery

/-- An enumeration: the number of its declaration, its name, and the values its members stand for. -/
structure EnumType where
  id : Nat
  name : String
  members : List (String × Word .int64)
deriving DecidableEq

namespace EnumType

/-- An enumeration whose members are numbered from zero. -/
def ofNames (id : Nat) (name : String) (members : List String) : EnumType :=
  ⟨id, name, members.zipIdx.map fun (m, i) => (m, Word.wrap .int64 i)⟩

/-- The value of the first member of that name, in any case. -/
def valueOf? (e : EnumType) (member : String) : Option (Word .int64) :=
  (e.members.find? fun (name, _) => Text.sameName name member).map (·.2)

/-- The name of the first member with that value. -/
def nameOf? (e : EnumType) (value : Word .int64) : Option String :=
  (e.members.find? fun (_, v) => v == value).map (·.1)

end EnumType

mutual

/-- A type. -/
inductive Ty where
  | object
  | boolean
  | char
  | string
  | int (k : IntKind)
  | single
  | double
  | decimal
  | dateTime
  | timeSpan
  | nullable (inner : Ty)
  | list (element : Ty)
  | grouping (key element : Ty)
  | enum (e : EnumType)
  | cls (c : Class)
deriving DecidableEq

/-- A class: a declaration by its number and name, one of the two holders of static members, or the
shape of a projection. -/
inductive Class where
  | declared (id : Nat) (name : String)
  | math
  | convert
  | shape (fields : Fields)
deriving DecidableEq

/-- The named fields of a shape, in order. -/
inductive Fields where
  | nil
  | cons (name : String) (ty : Ty) (rest : Fields)
deriving DecidableEq

end

namespace Fields

def toList : Fields → List (String × Ty)
  | nil => []
  | cons name ty rest => (name, ty) :: rest.toList

def ofList : List (String × Ty) → Fields
  | [] => nil
  | (name, ty) :: rest => cons name ty (ofList rest)

@[simp] theorem toList_ofList (fs : List (String × Ty)) : (ofList fs).toList = fs := by
  induction fs with
  | nil => rfl
  | cons field rest ih => simp [ofList, toList, ih]

@[simp] theorem ofList_toList : ∀ fs : Fields, ofList fs.toList = fs
  | nil => rfl
  | cons _ _ rest => by simp [ofList, toList, ofList_toList rest]

end Fields

/-- The shape with the given fields. -/
def Class.ofFields (fields : List (String × Ty)) : Class := .shape (.ofList fields)

/-- How a type takes part in arithmetic: with or without a sign, or not as an integer. -/
inductive NumericKind where
  | other
  | signed
  | unsigned
deriving DecidableEq, Repr

namespace Ty

abbrev int32 : Ty := .int .int32
abbrev uint32 : Ty := .int .uint32
abbrev int64 : Ty := .int .int64
abbrev uint64 : Ty := .int .uint64

instance : Inhabited Ty := ⟨.object⟩

/-- A type whose values are never absent, or a nullable form of one. -/
def isValueType : Ty → Bool
  | .object | .string | .list _ | .grouping _ _ | .cls _ => false
  | _ => true

def isNullable : Ty → Bool
  | .nullable _ => true
  | _ => false

/-- A type that admits the absent value. -/
def admitsNull (t : Ty) : Bool := t.isNullable || !t.isValueType

/-- The type under a nullable form. -/
def underlying : Ty → Ty
  | .nullable inner => inner
  | t => t

/-- How the underlying type takes part in arithmetic, if it does. -/
def numericKind? (t : Ty) : Option NumericKind :=
  match t.underlying with
  | .int k => some (if k.signed then .signed else .unsigned)
  | .char | .single | .double | .decimal => some .other
  | _ => none

def isNumeric (t : Ty) : Bool := t.numericKind?.isSome

def isSigned (t : Ty) : Bool := t.numericKind? == some .signed

def isUnsigned (t : Ty) : Bool := t.numericKind? == some .unsigned

def isIntegral (t : Ty) : Bool := t.isSigned || t.isUnsigned

/-- An enumeration or its nullable form. -/
def isEnum (t : Ty) : Bool :=
  match t.underlying with
  | .enum _ => true
  | _ => false

/-- The predefined type of that name, in any case. -/
def predefined? (name : String) : Option Ty :=
  match Text.fold name with
  | "object" => some .object
  | "boolean" => some .boolean
  | "char" => some .char
  | "string" => some .string
  | "sbyte" => some (.int .sbyte)
  | "byte" => some (.int .byte)
  | "int16" => some (.int .int16)
  | "uint16" => some (.int .uint16)
  | "int32" => some (.int .int32)
  | "uint32" => some (.int .uint32)
  | "int64" => some (.int .int64)
  | "uint64" => some (.int .uint64)
  | "single" => some .single
  | "double" => some .double
  | "decimal" => some .decimal
  | "datetime" => some .dateTime
  | "timespan" => some .timeSpan
  | "math" => some (.cls .math)
  | "convert" => some (.cls .convert)
  | _ => none

end Ty

/-- The shapes made so far, in order of their first use. -/
structure Shapes where
  made : List Fields

namespace Shapes

def empty : Shapes := ⟨[]⟩

/-- The number of a shape; one not made yet has the number it would get. -/
def number (s : Shapes) (fields : Fields) : Nat := s.made.idxOf fields + 1

/-- The name of a shape. -/
def name (s : Shapes) (fields : Fields) : String := "DynamicClass" ++ toString (s.number fields)

/-- The shapes after a use of one, which makes it unless it was made before. -/
def use (s : Shapes) (fields : Fields) : Shapes :=
  if s.made.contains fields then s else ⟨s.made ++ [fields]⟩

end Shapes

/-- The name of a class. -/
def Class.text (shapes : Shapes) : Class → String
  | .declared _ name => name
  | .math => "Math"
  | .convert => "Convert"
  | .shape fields => shapes.name fields

/-- A type as it is written in messages. -/
def Ty.text (shapes : Shapes) : Ty → String
  | .object => "Object"
  | .boolean => "Boolean"
  | .char => "Char"
  | .string => "String"
  | .int k => k.name
  | .single => "Single"
  | .double => "Double"
  | .decimal => "Decimal"
  | .dateTime => "DateTime"
  | .timeSpan => "TimeSpan"
  | .nullable inner => inner.text shapes ++ "?"
  | .list element => "List<" ++ element.text shapes ++ ">"
  | .grouping key element => "IGrouping<" ++ key.text shapes ++ ", " ++ element.text shapes ++ ">"
  | .enum e => e.name
  | .cls c => c.text shapes

namespace Shapes

/-- What is said of a shape that was asked for. -/
structure Answer where
  shape : Class
  number : Nat
  name : String
deriving DecidableEq

/-- The shape with the given fields, by the shapes made so far. -/
def answer (s : Shapes) (fields : List (String × Ty)) : Answer :=
  ⟨.ofFields fields, s.number (.ofList fields), (Class.ofFields fields).text s⟩

/-- Asks for the shape with the given fields. -/
def request (s : Shapes) (fields : List (String × Ty)) : Answer × Shapes :=
  let after := s.use (.ofList fields)
  (after.answer fields, after)

end Shapes

end RowQuery
