import RowQuery.Comparison
import RowQuery.Conversion
import RowQuery.Text.Blank
import RowQuery.Text.LetterCase
import RowQuery.Text.Search

/-!
What the predefined members do. Characters of a text are counted one by one, positions start at zero,
and a half is rounded to the even neighbour.
-/

namespace RowQuery.Operation

/-- The outcome of an operation. -/
abbrev Outcome := Except EvalError

/-- A result that an operation may not have. -/
def orElse {α : Type} (e : EvalError) : Option α → Outcome α
  | some a => .ok a
  | none => .error e

def expectString (what : String) : Value → Outcome (List Char)
  | .string s => .ok s.toList
  | _ => .error (.typeError (.expectsString what))

def expectInt32 (what : String) : Value → Outcome Int
  | .int .int32 n => .ok n.val
  | _ => .error (.typeError (.expectsInt32 what))

def expectDateTime : Value → Outcome DateTime
  | .dateTime t => .ok t
  | _ => .error (.typeError .expectsDateTime)

def expectTimeSpan : Value → Outcome TimeSpan
  | .timeSpan d => .ok d
  | _ => .error (.typeError .expectsTimeSpan)

/-- The argument at a position. -/
def expectArg (args : List Value) (i : Nat) : Outcome Value :=
  orElse (.arity (i + 1) args.length) args[i]?

/-- A number as a position that is at most a length. -/
def position (n : Int) (length : Nat) : Outcome Nat :=
  if 0 ≤ n ∧ n ≤ length then .ok n.toNat else .error (.indexOutOfRange n length)

/-- A count, held to the greatest 32-bit integer. -/
def clampedCount (n : Nat) : Value := .int .int32 (.clamp .int32 n)

/-- A string as a value. -/
def string (cs : List Char) : Value := .string (String.ofList cs)

/-- Reads a predefined property. -/
def property (cat : Catalog) (op : Builtin) (this : Value) : Outcome Value := do
  match op with
  | .stringLength => return clampedCount (← expectString "Length" this).length
  | .dateTimeYear => return .int32 (← expectDateTime this).date.year
  | .dateTimeMonth => return .int32 (← expectDateTime this).date.month
  | .dateTimeDay => return .int32 (← expectDateTime this).date.day
  | .dateTimeHour => return .int32 (← expectDateTime this).hour
  | .dateTimeMinute => return .int32 (← expectDateTime this).minute
  | .dateTimeSecond => return .int32 (← expectDateTime this).second
  | .dateTimeDate => return .dateTime (← expectDateTime this).midnight
  | .timeSpanDays => return .int .int32 (← expectTimeSpan this).days
  | .timeSpanHours => return .int32 (← expectTimeSpan this).hours
  | .timeSpanMinutes => return .int32 (← expectTimeSpan this).minutes
  | .timeSpanSeconds => return .int32 (← expectTimeSpan this).secondsOfMinute
  | .timeSpanTotalDays => return .double ((← expectTimeSpan this).totalIn 86400)
  | .timeSpanTotalHours => return .double ((← expectTimeSpan this).totalIn 3600)
  | .timeSpanTotalMinutes => return .double ((← expectTimeSpan this).totalIn 60)
  | .timeSpanTotalSeconds => return .double (← expectTimeSpan this).totalSeconds
  | .nullableHasValue => return .boolean !this.isNull
  | .nullableValue => if this.isNull then throw .nullableNoValue else return this
  | .listCount =>
    let items ← orElse (.typeError (.expectsSequence "Count")) (cat.items? this)
    return .int .int32 (← orElse (.overflow .itemCount) (Word.ofInt? .int32 items.length))
  | .groupingKey =>
    match this with
    | .group key _ => return key
    | _ => throw (.typeError .expectsGrouping)
  | op => throw (.typeError (.notProperty op))

/-- The number without its sign. -/
def absolute : Value → Outcome Value
  | .int .int32 n =>
    (orElse (.overflow (.absolute .int32)) (Word.ofInt? .int32 n.val.natAbs)).map (.int .int32)
  | .int .int64 n =>
    (orElse (.overflow (.absolute .int64)) (Word.ofInt? .int64 n.val.natAbs)).map (.int .int64)
  | .single x => .ok (.single x.abs)
  | .double x => .ok (.double x.abs)
  | .decimal d => .ok (.decimal d.abs)
  | v => .error (.typeError (.undefined "Abs" v.kindName))

/-- A number rounded to some decimal places. -/
def round (v : Value) (digits : Int) : Outcome Value :=
  match v with
  | .double x =>
    if 0 ≤ digits ∧ digits ≤ 15 then
      let scale : Double := .ofInt (10 ^ digits.toNat)
      .ok (.double (((x.mul scale).toIntegral .halfEven).div scale))
    else .error (.invalidArgument (.roundDigits 15))
  | .decimal d =>
    if 0 ≤ digits ∧ digits ≤ 28 then .ok (.decimal (d.round digits.toNat))
    else .error (.invalidArgument (.roundDigits 28))
  | v => .error (.typeError (.undefined "Round" v.kindName))

/-- A text read as a number of one of the types that texts can be converted to. -/
def read? (text : String) : Ty → Option Value
  | .int .int32 => (Word.read? .int32 text).map (.int .int32)
  | .int .int64 => (Word.read? .int64 text).map (.int .int64)
  | .double => (Binary.read? text).map .double
  | .decimal => (Decimal.readAny? text).map .decimal
  | _ => none

/-- A number without its fraction if the target is integral. -/
def roundedFor (target : Ty) : Value → Value × Option Ty
  | .single x =>
    if target.isIntegral then (.double ((x.convert : Double).toIntegral .halfEven), some .double)
    else (.single x, none)
  | .double x =>
    if target.isIntegral then (.double (x.toIntegral .halfEven), some .double) else (.double x, none)
  | .decimal d =>
    if target.isIntegral then (.decimal (d.round 0), some .decimal) else (.decimal d, none)
  | .boolean b => (.int32 (if b then 1 else 0), some .int32)
  | v => (v, none)

/-- The conversions by name: texts are read, fractions are rounded before they become integers, the
absent value becomes zero, and the range is always checked. -/
def convertTo (cat : Catalog) (v : Value) (source target : Ty) : Outcome Value :=
  if target = .string then .ok (.string v.text)
  else
    match v with
    | .null => .ok target.zero
    | .string s =>
      orElse (.invalidArgument (.unreadable s target)) (read? (Text.trim s) target)
    | v =>
      let (rounded, ty) := roundedFor target v
      cat.convert rounded (ty.getD source) target true

/-- The part of a text from a position on, of a length if one is given. -/
def substring (text : List Char) (args : List Value) : Outcome Value := do
  let start ← position (← expectInt32 "Substring" (← expectArg args 0)) text.length
  match args[1]? with
  | none => return string (text.drop start)
  | some n =>
    let length ← position (← expectInt32 "Substring" n) (text.length - start)
    return string ((text.drop start).take length)

/-- The text with another one found in it, by a test that a search operation stands for. -/
def search (test : List Char → List Char → Bool) (name : String) (this : Value) (args : List Value) :
    Outcome Value := do
  let text ← expectString name this
  let arg ← expectArg args 0
  if arg.isNull then throw (.invalidArgument (.null name))
  return .boolean (test text (← expectString name arg))

/-- Calls a predefined method. -/
def call (cat : Catalog) (op : Builtin) (method : Method) (this : Option Value) (args : List Value) :
    Outcome Value := do
  let receiver := orElse (.typeError (.needsInstance method.name)) this
  match op with
  | .toString => return .string (← receiver).text
  | .stringChars =>
    let text ← expectString "indexer" (← receiver)
    let i ← expectInt32 "indexer" (← expectArg args 0)
    let c := if 0 ≤ i then text[i.toNat]? else none
    return .char (← orElse (.indexOutOfRange i text.length) c)
  | .stringContains => search (fun t p => (Text.find? p t).isSome) method.name (← receiver) args
  | .stringStartsWith => search Text.startsWith method.name (← receiver) args
  | .stringEndsWith => search Text.endsWith method.name (← receiver) args
  | .stringIndexOf =>
    let text ← expectString "IndexOf" (← receiver)
    let part ← expectString "IndexOf" (← expectArg args 0)
    match Text.find? part text with
    | some i => return clampedCount i
    | none => return .int32 (-1)
  | .stringToUpper =>
    return .string (Text.toUpper (String.ofList (← expectString "ToUpper" (← receiver))))
  | .stringToLower =>
    return .string (Text.toLower (String.ofList (← expectString "ToLower" (← receiver))))
  | .stringTrim => return string (Text.trimChars (← expectString "Trim" (← receiver)))
  | .stringSubstring => substring (← expectString "Substring" (← receiver)) args
  | .stringReplace =>
    let text ← expectString "Replace" (← receiver)
    let old ← expectString "Replace" (← expectArg args 0)
    if old.isEmpty then throw (.invalidArgument .emptyReplaced)
    let new := ((← expectArg args 1).string?.getD "").toList
    return string (Text.replace old new text)
  | .stringConcat => return .string (String.join (args.map Value.text))
  | .stringCompare =>
    let a ← expectArg args 0
    let b ← expectArg args 1
    match ← a.compare b with
    | .lt => return .int32 (-1)
    | .eq => return .int32 0
    | .gt => return .int32 1
  | .stringIsNullOrEmpty =>
    return .boolean (((← expectArg args 0).string?.map String.isEmpty).getD true)
  | .mathAbs => absolute (← expectArg args 0)
  | .mathMin =>
    let a ← expectArg args 0
    let b ← expectArg args 1
    return if (← a.compare b) = .gt then b else a
  | .mathMax =>
    let a ← expectArg args 0
    let b ← expectArg args 1
    return if (← a.compare b) = .lt then b else a
  | .mathRound =>
    let digits ← match args[1]? with
      | some d => expectInt32 "Round" d
      | none => pure 0
    round (← expectArg args 0) digits
  | .mathFloor =>
    match ← expectArg args 0 with
    | .double x => return .double (x.toIntegral .floor)
    | .decimal d => return .decimal d.floor
    | v => throw (.typeError (.undefined method.name v.kindName))
  | .mathCeiling =>
    match ← expectArg args 0 with
    | .double x => return .double (x.toIntegral .ceiling)
    | .decimal d => return .decimal d.ceiling
    | v => throw (.typeError (.undefined method.name v.kindName))
  | .mathPow =>
    let a ← expectArg args 0
    let b ← expectArg args 1
    match a, b with
    | .double x, .double y => return .double (Double.pow x y)
    | _, _ => throw (.typeError .expectsDoubles)
  | .mathSqrt =>
    match ← expectArg args 0 with
    | .double x => return .double x.sqrt
    | _ => throw (.typeError .expectsDouble)
  | .convertTo =>
    convertTo cat (← expectArg args 0) (method.params.head?.getD .object) method.result
  | op => throw (.typeError (.notMethod op))

/-- A moment from its parts. -/
def newDateTime : List Int → Outcome Value
  | [year, month, day] => parts year month day 0 0 0
  | [year, month, day, hour, minute, second] => parts year month day hour minute second
  | other => .error (.arity 6 other.length)
where
  parts (year month day hour minute second : Int) : Outcome Value :=
    if [month, day, hour, minute, second].all (0 ≤ ·) then
      let date : Calendar.Date := ⟨year, month.toNat, day.toNat⟩
      (orElse (.invalidArgument .dateTime)
        (DateTime.ofParts? date hour.toNat minute.toNat second.toNat 0)).map .dateTime
    else .error (.invalidArgument .dateTime)

/-- A span from hours, minutes and seconds. -/
def newTimeSpan : List Int → Outcome Value
  | [hours, minutes, seconds] =>
    Value.ofTimeSpan?
      (TimeSpan.ofNanos? ((hours * 3600 + minutes * 60 + seconds) * nanosPerSecond))
  | other => .error (.arity 3 other.length)

/-- Calls a predefined constructor of a type. -/
def construct (cat : Catalog) (op : Builtin) (ty : Ty) (args : List Value) : Outcome Value := do
  match op with
  | .dateTimeNew => newDateTime (← args.mapM (expectInt32 "constructor"))
  | .timeSpanNew => newTimeSpan (← args.mapM (expectInt32 "constructor"))
  | .decimalNew =>
    let arg ← expectArg args 0
    cat.convert arg arg.naturalType .decimal true
  | .objectNew =>
    match ty with
    | .cls c => return .object c args []
    | ty => throw (.typeError (.cannotConstruct ty))
  | op => throw (.typeError (.notConstructor op))

end RowQuery.Operation
