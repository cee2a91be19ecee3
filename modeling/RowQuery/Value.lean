import RowQuery.Binary.Text
import RowQuery.Decimal.Text
import RowQuery.TimeSpan
import RowQuery.Ty

/-!
The values that expressions compute with. An object holds its fields by position and, if its class can
be iterated, the items it yields; a group holds a key and the items that share it.
-/

namespace RowQuery

/-- A value. -/
inductive Value where
  | null
  | boolean (b : Bool)
  | char (c : Char)
  | string (s : String)
  | int (k : IntKind) (n : Word k)
  | single (x : Single)
  | double (x : Double)
  | decimal (d : Decimal)
  | dateTime (t : DateTime)
  | timeSpan (d : TimeSpan)
  | enum (e : EnumType) (n : Word .int64)
  | object (c : Class) (fields items : List Value)
  | list (items : List Value)
  | group (key : Value) (items : List Value)

namespace Value

instance : Inhabited Value := ⟨.null⟩

/-- The 32-bit integer congruent to `n`. -/
def int32 (n : Int) : Value := .int .int32 (Word.wrap .int32 n)

def isNull : Value → Bool
  | .null => true
  | _ => false

def bool? : Value → Option Bool
  | .boolean b => some b
  | _ => none

def string? : Value → Option String
  | .string s => some s
  | _ => none

def int32? : Value → Option Int
  | .int .int32 n => some n.val
  | _ => none

/-- The name of the kind of a value. -/
def kindName : Value → String
  | .null => "Null"
  | .boolean _ => "Boolean"
  | .char _ => "Char"
  | .string _ => "String"
  | .int k _ => k.name
  | .single _ => "Single"
  | .double _ => "Double"
  | .decimal _ => "Decimal"
  | .dateTime _ => "DateTime"
  | .timeSpan _ => "TimeSpan"
  | .enum _ _ => "Enum"
  | .object _ _ _ => "Object"
  | .list _ => "List"
  | .group _ _ => "Grouping"

mutual

/-- The type that a value has by itself. A list takes its element type from its first item. -/
def naturalType : Value → Ty
  | .null => .object
  | .boolean _ => .boolean
  | .char _ => .char
  | .string _ => .string
  | .int k _ => .int k
  | .single _ => .single
  | .double _ => .double
  | .decimal _ => .decimal
  | .dateTime _ => .dateTime
  | .timeSpan _ => .timeSpan
  | .enum e _ => .enum e
  | .object c _ _ => .cls c
  | .list items => .list (firstType items)
  | .group key items => .grouping key.naturalType (firstType items)

/-- The type of the first item, or the general type where there is none. -/
def firstType : List Value → Ty
  | [] => .object
  | item :: _ => item.naturalType

end

/-- Texts with a comma and a space between them. -/
def commaSeparated (texts : List String) : String := String.intercalate ", " texts

mutual

/-- A value as text. The absent value is empty, an object of a shape shows its fields, and any other
object shows the name of its class. -/
def text : Value → String
  | .null => ""
  | .boolean b => if b then "True" else "False"
  | .char c => String.singleton c
  | .string s => s
  | .int _ n => toString n.val
  | .single x => x.plainText
  | .double x => x.plainText
  | .decimal d => d.text
  | .dateTime t => t.text
  | .timeSpan d => d.text
  | .enum e n => (e.nameOf? n).getD (toString n.val)
  | .object (.shape fs) fields _ => "\x7b" ++ commaSeparated (fieldTexts fs.toList fields) ++ "\x7d"
  | .object c _ _ => c.text .empty
  | .list items => "[" ++ commaSeparated (texts items) ++ "]"
  | .group key items => key.text ++ " (" ++ toString items.length ++ ")"

def texts : List Value → List String
  | [] => []
  | item :: items => item.text :: texts items

/-- The fields of a shape that have a value, each with its name. -/
def fieldTexts : List (String × Ty) → List Value → List String
  | (name, _) :: fs, value :: values => (name ++ "=" ++ value.text) :: fieldTexts fs values
  | _, _ => []

end

end Value

end RowQuery
