import RowQuery.Binary.Text
import RowQuery.Named

/-!
Data in the JSON format. The fields of an object are kept in the order of their names, each name once;
text is written without blank space, or indented by two spaces for each level.
-/

namespace RowQuery

/-- A JSON value. A number is an integer of 64 bits, with or without a sign, or a finite fraction. -/
inductive Json where
  | null
  | bool (b : Bool)
  | int (n : Int)
  | float (x : Double)
  | string (s : String)
  | array (items : List Json)
  | object (fields : List (String × Json))

namespace Json

/-- A fraction, or nothing if it is not finite. -/
def ofDouble (x : Double) : Json :=
  match x.view with
  | .finite _ _ _ => .float x
  | _ => .null

/-- The object with the given fields. -/
def ofFields (fields : List (String × Json)) : Json :=
  .object (Named.ofList fields)

/-- The field of that name. -/
def field? (name : String) : Json → Option Json
  | .object fields => fields.lookup name
  | _ => none

/-- A digit of base sixteen. -/
def hexDigit (n : Nat) : Char := (Nat.toDigits 16 n).headD '0'

/-- A character inside quotes. -/
def escaped (c : Char) : List Char :=
  if c = '"' then ['\\', '"']
  else if c = '\\' then ['\\', '\\']
  else if c = '\n' then ['\\', 'n']
  else if c = '\r' then ['\\', 'r']
  else if c = '\t' then ['\\', 't']
  else if c = '\x08' then ['\\', 'b']
  else if c = '\x0c' then ['\\', 'f']
  else if c.toNat < 32 then
    ['\\', 'u', '0', '0', hexDigit (c.toNat / 16), hexDigit (c.toNat % 16)]
  else [c]

/-- A text in quotes. -/
def quoted (s : String) : String := "\"" ++ String.ofList (s.toList.flatMap escaped) ++ "\""

/-- A fraction as it is written in data. -/
def floatText (x : Double) : String := x.dataText?.getD "null"

mutual

/-- A value without blank space. -/
def text : Json → String
  | .null => "null"
  | .bool b => if b then "true" else "false"
  | .int n => toString n
  | .float x => floatText x
  | .string s => quoted s
  | .array items => "[" ++ ",".intercalate (itemTexts items) ++ "]"
  | .object fields => "\x7b" ++ ",".intercalate (fieldTexts fields) ++ "\x7d"

def itemTexts : List Json → List String
  | [] => []
  | v :: vs => v.text :: itemTexts vs

def fieldTexts : List (String × Json) → List String
  | [] => []
  | (name, v) :: rest => (quoted name ++ ":" ++ v.text) :: fieldTexts rest

end

/-- The start of a line at a level. -/
def newLine (level : Nat) : String := "\n" ++ String.ofList (List.replicate (2 * level) ' ')

/-- Parts on lines of their own between brackets, one level further in. -/
def block (opening closing : String) (level : Nat) (parts : List String) : String :=
  if parts.isEmpty then opening ++ closing
  else
    opening ++ newLine (level + 1) ++ ("," ++ newLine (level + 1)).intercalate parts ++ newLine level ++
      closing

mutual

/-- A value at a level of indentation. -/
def indented (level : Nat) : Json → String
  | .array items => block "[" "]" level (itemBlocks (level + 1) items)
  | .object fields => block "\x7b" "\x7d" level (fieldBlocks (level + 1) fields)
  | .null => text .null
  | .bool b => text (.bool b)
  | .int n => text (.int n)
  | .float x => text (.float x)
  | .string s => text (.string s)

def itemBlocks (level : Nat) : List Json → List String
  | [] => []
  | v :: vs => v.indented level :: itemBlocks level vs

def fieldBlocks (level : Nat) : List (String × Json) → List String
  | [] => []
  | (name, v) :: rest => (quoted name ++ ": " ++ v.indented level) :: fieldBlocks level rest

end

/-- A value on indented lines. -/
def pretty (v : Json) : String := v.indented 0

end Json

end RowQuery
