import RowQuery.Member

/-!
The members of the predefined types: what strings, dates, lengths of time and numbers offer, the
static members of `Math` and `Convert`, and what the wrapping types offer for any type they wrap.
-/

namespace RowQuery.Predefined

def readOnly (name : String) (ty : Ty) (op : Builtin) : Property :=
  ⟨name, ty, false, .builtin op⟩

def constant (name : String) (ty : Ty) (value : Value) : Property :=
  ⟨name, ty, true, .constant value⟩

def instanceMethod (name : String) (params : List Ty) (result : Ty) (op : Builtin) : Method :=
  ⟨name, params, result, false, .builtin op⟩

def staticMethod (name : String) (params : List Ty) (result : Ty) (op : Builtin) : Method :=
  ⟨name, params, result, true, .builtin op⟩

/-- The members of every type. -/
def shared : Members :=
  { Members.empty with methods := [instanceMethod "ToString" [] .string .toString] }

/-- The texts of two values, one after the other. -/
def concat : Method := staticMethod "Concat" [.object, .object] .string .stringConcat

/-- The order of two strings as a number below, at or above zero. -/
def compareStrings : Method := staticMethod "Compare" [.string, .string] .int32 .stringCompare

/-- The members of strings. -/
def string : Members where
  properties := [readOnly "Length" .int32 .stringLength]
  methods :=
    [instanceMethod "Contains" [.string] .boolean .stringContains,
     instanceMethod "StartsWith" [.string] .boolean .stringStartsWith,
     instanceMethod "EndsWith" [.string] .boolean .stringEndsWith,
     instanceMethod "IndexOf" [.string] .int32 .stringIndexOf,
     instanceMethod "ToUpper" [] .string .stringToUpper,
     instanceMethod "ToLower" [] .string .stringToLower,
     instanceMethod "Trim" [] .string .stringTrim,
     instanceMethod "Substring" [.int32] .string .stringSubstring,
     instanceMethod "Substring" [.int32, .int32] .string .stringSubstring,
     instanceMethod "Replace" [.string, .string] .string .stringReplace,
     concat,
     compareStrings,
     staticMethod "IsNullOrEmpty" [.string] .boolean .stringIsNullOrEmpty]
  constructors := []
  indexers := [instanceMethod "Chars" [.int32] .char .stringChars]

/-- The members of dates. -/
def dateTime : Members where
  properties :=
    [readOnly "Year" .int32 .dateTimeYear, readOnly "Month" .int32 .dateTimeMonth,
     readOnly "Day" .int32 .dateTimeDay, readOnly "Hour" .int32 .dateTimeHour,
     readOnly "Minute" .int32 .dateTimeMinute, readOnly "Second" .int32 .dateTimeSecond,
     readOnly "Date" .dateTime .dateTimeDate]
  methods := []
  constructors :=
    [.constructor (List.replicate 3 .int32) (.builtin .dateTimeNew),
     .constructor (List.replicate 6 .int32) (.builtin .dateTimeNew)]
  indexers := []

/-- The members of lengths of time. -/
def timeSpan : Members where
  properties :=
    [readOnly "Days" .int32 .timeSpanDays, readOnly "Hours" .int32 .timeSpanHours,
     readOnly "Minutes" .int32 .timeSpanMinutes, readOnly "Seconds" .int32 .timeSpanSeconds,
     readOnly "TotalDays" .double .timeSpanTotalDays,
     readOnly "TotalHours" .double .timeSpanTotalHours,
     readOnly "TotalMinutes" .double .timeSpanTotalMinutes,
     readOnly "TotalSeconds" .double .timeSpanTotalSeconds]
  methods := []
  constructors := [.constructor (List.replicate 3 .int32) (.builtin .timeSpanNew)]
  indexers := []

/-- The least and the greatest value of a numeric type. -/
def bounds (ty : Ty) (least greatest : Value) : Members :=
  { Members.empty with
    properties := [constant "MinValue" ty least, constant "MaxValue" ty greatest] }

/-- The members of an integral type. -/
def integer (k : IntKind) : Members :=
  bounds (.int k) (.int k (Word.wrap k k.least)) (.int k (Word.wrap k k.greatest))

/-- The greatest finite number of a format, or its opposite. -/
def extreme (f : Format) (negative : Bool) : Binary f := .ofMagnitude negative (f.infinite - 1)

def single : Members := bounds .single (.single (extreme _ true)) (.single (extreme _ false))

def double : Members := bounds .double (.double (extreme _ true)) (.double (extreme _ false))

/-- The greatest decimal, or its opposite. -/
def longest (negative : Bool) : Decimal :=
  ⟨negative, Decimal.limit - 1, 0, by decide, Nat.zero_le Decimal.maxScale⟩

/-- The members of decimals, which can be constructed from the wider numeric types. -/
def decimal : Members :=
  { bounds .decimal (.decimal (longest true)) (.decimal (longest false)) with
    constructors := [.int32, .uint32, .int64, .uint64, .single, .double].map fun source =>
      .constructor [source] (.builtin .decimalNew) }

/-- The members of `Math`. -/
def math : Members where
  properties :=
    [constant "PI" .double (.double ⟨0x400921FB54442D18#64⟩),
     constant "E" .double (.double ⟨0x4005BF0A8B145769#64⟩)]
  methods :=
    ([.int32, .int64, .single, .double, .decimal].map fun ty => staticMethod "Abs" [ty] ty .mathAbs) ++
    ([.int32, .uint32, .int64, .uint64, .single, .double, .decimal].flatMap fun ty =>
      [staticMethod "Min" [ty, ty] ty .mathMin, staticMethod "Max" [ty, ty] ty .mathMax]) ++
    ([.double, .decimal].flatMap fun ty =>
      [staticMethod "Round" [ty] ty .mathRound, staticMethod "Round" [ty, .int32] ty .mathRound,
       staticMethod "Floor" [ty] ty .mathFloor, staticMethod "Ceiling" [ty] ty .mathCeiling]) ++
    [staticMethod "Pow" [.double, .double] .double .mathPow,
     staticMethod "Sqrt" [.double] .double .mathSqrt]
  constructors := []
  indexers := []

/-- The members of `Convert`. -/
def convert : Members :=
  let sources : List Ty :=
    [.boolean, .char, .int .sbyte, .int .byte, .int .int16, .int .uint16, .int32, .uint32, .int64,
     .uint64, .single, .double, .decimal, .string]
  let targets : List (String × Ty) :=
    [("ToInt32", .int32), ("ToInt64", .int64), ("ToDouble", .double), ("ToDecimal", .decimal)]
  { Members.empty with
    methods :=
      (targets.flatMap fun (name, target) =>
        sources.map fun source => staticMethod name [source] target .convertTo) ++
      [staticMethod "ToString" [.object] .string .convertTo] }

/-- The members of a type that is not a class, beyond those of every type. -/
def ofType? (ty : Ty) : Option Members :=
  match ty with
  | .string => some string
  | .dateTime => some dateTime
  | .timeSpan => some timeSpan
  | .int k => some (integer k)
  | .single => some single
  | .double => some double
  | .decimal => some decimal
  | .nullable inner => some { Members.empty with
      properties := [readOnly "HasValue" .boolean .nullableHasValue,
        readOnly "Value" inner .nullableValue] }
  | .list _ => some { Members.empty with properties := [readOnly "Count" .int32 .listCount] }
  | .grouping key _ => some { Members.empty with properties := [readOnly "Key" key .groupingKey] }
  | .enum e => some { Members.empty with
      properties := e.members.map fun (name, n) => constant name ty (.enum e n) }
  | .object | .boolean | .char | .cls _ => none

end RowQuery.Predefined
