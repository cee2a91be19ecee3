import RowQuery.Json.Reader
import RowQuery.Toml
import RowQuery.Toml.Scalar

/-!
Reading of TOML: lines that set keys, lines that open tables, comments and blank lines. Arrays and
inline tables may be nested to a fixed depth.
-/

namespace RowQuery.Toml

open Reader

def isBlankChar (c : Char) : Bool := c == ' ' || c == '\t'

/-- Blank space within a line. -/
def blank : Reader Unit := discard (takeWhile isBlankChar)

/-- Takes the end of a line, if it comes next. -/
def newline : Reader Bool := do
  if ← taken '\n' then return true
  if ← comesNext ['\r', '\n'] then
    expectAll ['\r', '\n']
    return true
  return false

/-- The characters that may stand in comments and in quotes on one line. -/
def isPrintable (c : Char) : Bool := c == '\t' || (32 ≤ c.toNat && c.toNat != 127)

/-- A comment up to the end of its line, if one comes next. -/
def comment : Reader Unit := do
  if ← taken '#' then discard (takeWhile isPrintable)

/-- What may follow on a line when its content is complete. -/
def endOfLine : Reader Unit := do
  blank
  comment
  if !(← newline) && (← peek?).isSome then fail

/-- Blank space, comments and ends of lines. -/
def blankLines : Reader Unit :=
  repeatStep (fun _ => do
    let before := (← get).length
    blank
    comment
    discard newline
    return if (← get).length < before then some () else none) ()

/-- The character after a backslash. -/
def escape : Reader Char := do
  match ← next with
  | '"' => return '"'
  | '\\' => return '\\'
  | 'b' => return '\x08'
  | 'f' => return '\x0c'
  | 'n' => return '\n'
  | 'r' => return '\r'
  | 't' => return '\t'
  | 'u' => Json.charOf (← Json.hexNumber 4 0)
  | 'U' => Json.charOf (← Json.hexNumber 8 0)
  | _ => fail

/-- A text in double quotes on one line. -/
def basicString : Reader String := do
  expect '"'
  let cs ← repeatStep (fun (read : List Char) => do
    match ← next with
    | '"' => return none
    | '\\' => return some ((← escape) :: read)
    | c => if isPrintable c then return some (c :: read) else fail) []
  return String.ofList cs.reverse

/-- A text in single quotes on one line. -/
def literalString : Reader String := do
  expect '\''
  let cs ← takeWhile fun c => isPrintable c && c != '\''
  expect '\''
  return String.ofList cs

/-- Takes quotes that stand together: none of them ends a text, or three do and those before them
belong to it. -/
def closingQuotes (quote : Char) : Reader (Nat × Bool) := do
  let count := (← takeWhile (· == quote)).length
  if count < 3 then return (count, false)
  else if count ≤ 5 then return (count - 3, true)
  else fail

/-- A text between triple quotes, over several lines. A backslash at the end of a line joins it with the
next one that is not blank. -/
def multiline (quote : Char) (escapes : Bool) : Reader String := do
  expectAll [quote, quote, quote]
  discard newline
  let (cs, closed) ← repeatStep (fun (state : List Char × Bool) => do
    let (read, closed) := state
    if closed then return none
    if (← peek?) = some quote then
      let (count, closes) ← closingQuotes quote
      return some (List.replicate count quote ++ read, closes)
    if ← newline then return some ('\n' :: read, false)
    let c ← next
    if escapes && c = '\\' then
      let rest := (← get).dropWhile isBlankChar
      if rest.head? = some '\n' || rest.take 2 = ['\r', '\n'] then
        discard <| takeWhile fun c => isBlankChar c || c == '\n' || c == '\r'
        return some (read, false)
      return some ((← escape) :: read, false)
    if isPrintable c then return some (c :: read, false) else fail) ([], false)
  if closed then return String.ofList cs.reverse else fail

/-- One part of a key. -/
def keyPart : Reader String := do
  match ← peek? with
  | some '"' => basicString
  | some '\'' => literalString
  | _ =>
    let cs ← takeWhile fun c => c.isAlphanum || c == '_' || c == '-'
    if cs.isEmpty then fail else return String.ofList cs

/-- A key with dots between its parts: the path to a table and the name in it. -/
def key : Reader (List String × String) := do
  blank
  let first ← keyPart
  blank
  let parts ← repeatStep (fun (read : List String) => do
    if ← taken '.' then
      blank
      let part ← keyPart
      blank
      return some (part :: read)
    return none) [first]
  return (parts.tail.reverse, parts.headD first)

/-- A value without quotes. A date may be parted from the time by a space. -/
def scalar : Reader Toml := do
  let isPart (c : Char) : Bool := c.isAlphanum || c == '+' || c == '-' || c == '.' || c == '_' || c == ':'
  let cs ← takeWhile isPart
  let later ← get
  let cs ←
    match later with
    | ' ' :: c :: _ =>
      if Scalar.isDate cs && c.isDigit then
        expect ' '
        pure (cs ++ ' ' :: (← takeWhile isPart))
      else pure cs
    | _ => pure cs
  if Scalar.isScalar cs then return .plain (String.ofList cs) else fail

/-- A key and its value. -/
def pair (value : Reader Toml) : Reader (List String × String × Toml) := do
  let (path, name) ← key
  expect '='
  blank
  return (path, name, ← value)

/-- The items of an array, over several lines if need be; a comma may follow the last. -/
def bracketed (value : Reader Toml) : Reader Toml := do
  expect '['
  blankLines
  let (items, closed) ← repeatStep (fun (state : List Toml × Bool) => do
    let (read, closed) := state
    if closed then return none
    if ← taken ']' then return some (read, true)
    let v ← value
    blankLines
    if ← taken ',' then blankLines
    else if (← peek?) ≠ some ']' then fail
    return some (v :: read, false)) ([], false)
  if closed then return .array items.reverse else fail

/-- A table within a line. -/
def inlineTable (value : Reader Toml) : Reader Toml := do
  expect '\x7b'
  blank
  if ← taken '\x7d' then return .table []
  let first ← pair value
  blank
  let pairs ← repeatStep (fun (read : List (List String × String × Toml)) => do
    if ← taken ',' then
      let p ← pair value
      blank
      return some (p :: read)
    return none) [first]
  expect '\x7d'
  let entries ← ofOption (Entries.addAll [] pairs.reverse)
  return .table (finishEntries entries)

/-- A value in which arrays and inline tables are nested at most so deep. -/
def value : Nat → Reader Toml
  | 0 => fail
  | depth + 1 => do
    match ← peek? with
    | some '"' =>
      if ← comesNext ['"', '"', '"'] then return .string (← multiline '"' true)
      return .string (← basicString)
    | some '\'' =>
      if ← comesNext ['\'', '\'', '\''] then return .string (← multiline '\'' false)
      return .string (← literalString)
    | some '[' => bracketed (value depth)
    | some '\x7b' => inlineTable (value depth)
    | _ => scalar

/-- The depth to which values may be nested. -/
def maxDepth : Nat := 80

/-- A line of a document. -/
inductive Line where
  | pair (path : List String) (key : String) (v : Toml)
  | table (path : List String) (key : String)
  | tables (path : List String) (key : String)

/-- The content of a line. -/
def content : Reader Line := do
  if ← comesNext ['[', '['] then
    expectAll ['[', '[']
    let (path, name) ← key
    expectAll [']', ']']
    return .tables path name
  if ← taken '[' then
    let (path, name) ← key
    expect ']'
    return .table path name
  let (path, name, v) ← pair (value maxDepth)
  return .pair path name v

/-- A line with content, up to its end. -/
def line : Reader Line := do
  let l ← content
  endOfLine
  return l

/-- The lines of a document. -/
def lines : Reader (List Line) := do
  discard (taken '\uFEFF')
  blankLines
  let read ← repeatStep (fun (read : List Line) => do
    if (← peek?).isNone then return none
    let l ← line
    blankLines
    return some (l :: read)) []
  return read.reverse

/-- The values that are set before the next table is opened. -/
def leadingPairs : List Line → List (List String × String × Toml)
  | .pair path key v :: rest => (path, key, v) :: leadingPairs rest
  | _ => []

/-- Builds a document from its lines: each header takes the values up to the next one. -/
def build (entries : Entries) : List Line → Option Entries
  | [] => some entries
  | .pair _ _ _ :: rest => build entries rest
  | .table path key :: rest => do build (← entries.addTable path key (leadingPairs rest)) rest
  | .tables path key :: rest => do build (← entries.addToArray path key (leadingPairs rest)) rest

/-- Reads a document as a table. -/
def parse? (text : String) : Option Toml := do
  let ls ← lines.whole? text
  let root ← Entries.addAll [] (leadingPairs ls)
  return .table (finishEntries (← build root ls))

end RowQuery.Toml
