import RowQuery.Value

/-!
Members of types: properties, methods, constructors and indexers. What a member does is one of the
predefined operations, a field read by position, a constant, or a callback that the host supplied.
-/

namespace RowQuery

/-- The predefined operations. -/
inductive Builtin where
  | toString
  | stringLength | stringChars | stringContains | stringStartsWith | stringEndsWith | stringIndexOf
  | stringToUpper | stringToLower | stringTrim | stringSubstring | stringReplace | stringConcat
  | stringCompare | stringIsNullOrEmpty
  | dateTimeNew | dateTimeYear | dateTimeMonth | dateTimeDay | dateTimeHour | dateTimeMinute
  | dateTimeSecond | dateTimeDate
  | timeSpanNew | timeSpanDays | timeSpanHours | timeSpanMinutes | timeSpanSeconds
  | timeSpanTotalDays | timeSpanTotalHours | timeSpanTotalMinutes | timeSpanTotalSeconds
  | nullableHasValue | nullableValue | listCount | groupingKey
  | mathAbs | mathMin | mathMax | mathRound | mathFloor | mathCeiling | mathPow | mathSqrt
  | convertTo | decimalNew | objectNew
deriving DecidableEq, Repr

namespace Builtin

/-- The name of an operation in messages. -/
def name : Builtin → String
  | toString => "ToString"
  | stringLength => "StringLength"
  | stringChars => "StringChars"
  | stringContains => "StringContains"
  | stringStartsWith => "StringStartsWith"
  | stringEndsWith => "StringEndsWith"
  | stringIndexOf => "StringIndexOf"
  | stringToUpper => "StringToUpper"
  | stringToLower => "StringToLower"
  | stringTrim => "StringTrim"
  | stringSubstring => "StringSubstring"
  | stringReplace => "StringReplace"
  | stringConcat => "StringConcat"
  | stringCompare => "StringCompare"
  | stringIsNullOrEmpty => "StringIsNullOrEmpty"
  | dateTimeNew => "DateTimeNew"
  | dateTimeYear => "DateTimeYear"
  | dateTimeMonth => "DateTimeMonth"
  | dateTimeDay => "DateTimeDay"
  | dateTimeHour => "DateTimeHour"
  | dateTimeMinute => "DateTimeMinute"
  | dateTimeSecond => "DateTimeSecond"
  | dateTimeDate => "DateTimeDate"
  | timeSpanNew => "TimeSpanNew"
  | timeSpanDays => "TimeSpanDays"
  | timeSpanHours => "TimeSpanHours"
  | timeSpanMinutes => "TimeSpanMinutes"
  | timeSpanSeconds => "TimeSpanSeconds"
  | timeSpanTotalDays => "TimeSpanTotalDays"
  | timeSpanTotalHours => "TimeSpanTotalHours"
  | timeSpanTotalMinutes => "TimeSpanTotalMinutes"
  | timeSpanTotalSeconds => "TimeSpanTotalSeconds"
  | nullableHasValue => "NullableHasValue"
  | nullableValue => "NullableValue"
  | listCount => "ListCount"
  | groupingKey => "GroupingKey"
  | mathAbs => "MathAbs"
  | mathMin => "MathMin"
  | mathMax => "MathMax"
  | mathRound => "MathRound"
  | mathFloor => "MathFloor"
  | mathCeiling => "MathCeiling"
  | mathPow => "MathPow"
  | mathSqrt => "MathSqrt"
  | convertTo => "ConvertTo"
  | decimalNew => "DecimalNew"
  | objectNew => "ObjectNew"

/-- The operations in the order of their declaration. -/
def all : List Builtin :=
  [toString, stringLength, stringChars, stringContains, stringStartsWith, stringEndsWith,
   stringIndexOf, stringToUpper, stringToLower, stringTrim, stringSubstring, stringReplace,
   stringConcat, stringCompare, stringIsNullOrEmpty, dateTimeNew, dateTimeYear, dateTimeMonth,
   dateTimeDay, dateTimeHour, dateTimeMinute, dateTimeSecond, dateTimeDate, timeSpanNew,
   timeSpanDays, timeSpanHours, timeSpanMinutes, timeSpanSeconds, timeSpanTotalDays,
   timeSpanTotalHours, timeSpanTotalMinutes, timeSpanTotalSeconds, nullableHasValue, nullableValue,
   listCount, groupingKey, mathAbs, mathMin, mathMax, mathRound, mathFloor, mathCeiling, mathPow,
   mathSqrt, convertTo, decimalNew, objectNew]

/-- The operation of that name. -/
def ofName? (name : String) : Option Builtin := all.find? (·.name == name)

end Builtin

/-- The names of the fields of each class, which a callback may look up. -/
abbrev Layout := Class → List String

/-- A member of the host: given the receiver, if there is one, and the arguments, it returns a value
or fails with a message. -/
abbrev Callback := Layout → Option Value → List Value → Except String Value

/-- How a property gets its value. -/
inductive Getter where
  | field (position : Nat)
  | constant (value : Value)
  | builtin (op : Builtin)
  | native (run : Layout → Value → Except String Value)

structure Property where
  name : String
  ty : Ty
  isStatic : Bool
  getter : Getter

/-- What a method does. -/
inductive Body where
  | builtin (op : Builtin)
  | native (run : Callback)

/-- A method, constructor or indexer. A constructor leaves its result type general; the expression that
calls it carries the type it constructs. -/
structure Method where
  name : String
  params : List Ty
  result : Ty
  isStatic : Bool
  body : Body

/-- The members declared at one level of a hierarchy. -/
structure Members where
  properties : List Property
  methods : List Method
  constructors : List Method
  indexers : List Method

namespace Members

def empty : Members := ⟨[], [], [], []⟩

/-- The first property of that name, in any case. -/
def property? (m : Members) (name : String) (isStatic : Bool) : Option Property :=
  m.properties.find? fun p => p.isStatic == isStatic && Text.sameName p.name name

/-- The methods of that name, in any case. -/
def methodsNamed (m : Members) (name : String) (isStatic : Bool) : List Method :=
  m.methods.filter fun x => x.isStatic == isStatic && Text.sameName x.name name

end Members

namespace Method

/-- A constructor. -/
def constructor (params : List Ty) (body : Body) : Method := ⟨".ctor", params, .object, true, body⟩

/-- An instance method of the host; without a receiver it fails. -/
def ofInstance (name : String) (params : List Ty) (result : Ty)
    (run : Layout → Value → List Value → Except String Value) : Method :=
  ⟨name, params, result, false, .native fun layout this args =>
    match this with
    | some this => run layout this args
    | none => .error ("'" ++ name ++ "' requires an instance")⟩

/-- A static method of the host. -/
def ofStatic (name : String) (params : List Ty) (result : Ty)
    (run : Layout → List Value → Except String Value) : Method :=
  ⟨name, params, result, true, .native fun layout _ args => run layout args⟩

/-- A constructor of the host. -/
def ofConstructor (params : List Ty) (run : Layout → List Value → Except String Value) : Method :=
  constructor params (.native fun layout _ args => run layout args)

/-- An indexer of the host; without a receiver it fails. -/
def ofIndexer (params : List Ty) (result : Ty)
    (run : Layout → Value → List Value → Except String Value) : Method :=
  ⟨"Item", params, result, false, .native fun layout this args =>
    match this with
    | some this => run layout this args
    | none => .error "indexer requires an instance"⟩

end Method

end RowQuery
