import RowQuery.Expr

/-!
What can go wrong when an expression is evaluated. Values appear in these errors by the names of their
kinds, and types as they are written in messages.
-/

namespace RowQuery

/-- A result that leaves the range of its type. -/
inductive OverflowCause where
  | division
  | remainder
  | dateTime
  | timeSpan
  | decimal (op : BinaryOp)
  | range (value : String) (target : Ty)
  | count
  | itemCount
  | sum
  | average
  | absolute (k : IntKind)

/-- An argument that an operation does not accept. -/
inductive ArgumentCause where
  | null (method : String)
  | emptyReplaced
  | roundDigits (most : Nat)
  | unreadable (text : String) (target : Ty)
  | dateTime

/-- A value of a kind that an operation is not defined for. -/
inductive TypeCause where
  | operator (op : BinaryOp) (left right : String)
  | notArithmetic (op : BinaryOp)
  | negate (kind : String)
  | invert (kind : String)
  | expectsString (what : String)
  | expectsInt32 (what : String)
  | expectsDateTime
  | expectsTimeSpan
  | expectsSequence (what : String)
  | expectsGrouping
  | expectsObject (member : String)
  | expectsList
  | expectsPosition
  | expectsDoubles
  | expectsDouble
  | expectsCondition (op : AggregateOp) (kind : String)
  | needsInstance (member : String)
  | isConstructor (method : String)
  | notProperty (op : Builtin)
  | notMethod (op : Builtin)
  | notConstructor (op : Builtin)
  | undefined (what kind : String)
  | cannotConstruct (ty : Ty)
  | unboundSlot (slot : Nat)
  | condition (kind : String)
  | predicate (kind : String)

/-- A failure of evaluation. -/
inductive EvalError where
  | nullReference (member : String)
  | nullableNoValue
  | divideByZero
  | overflow (cause : OverflowCause)
  | emptySequence
  | indexOutOfRange (index : Int) (length : Nat)
  | invalidArgument (cause : ArgumentCause)
  | notComparable (left right : String)
  | invalidCast (kind : String) (target : Ty)
  | native (message : String)
  | arity (expected actual : Nat)
  | typeError (cause : TypeCause)

def OverflowCause.message (shapes : Shapes) : OverflowCause → String
  | division => "integer division overflow"
  | remainder => "integer remainder overflow"
  | dateTime => "DateTime out of range"
  | timeSpan => "TimeSpan out of range"
  | decimal op => "Decimal " ++ op.name ++ " overflow"
  | range value target => "value " ++ value ++ " is out of range for " ++ target.text shapes
  | count => "Count exceeds Int32"
  | itemCount => "Count"
  | sum => "Sum overflow"
  | average => "Average overflow"
  | absolute k => "Abs of " ++ k.name ++ ".MinValue"

def ArgumentCause.message (shapes : Shapes) : ArgumentCause → String
  | null method => method ++ " argument is null"
  | emptyReplaced => "Replace: old value is empty"
  | roundDigits most => "Round digits must be 0 to " ++ toString most
  | unreadable text target => "'" ++ text ++ "' is not a valid " ++ target.text shapes
  | dateTime => "DateTime components are out of range"

def TypeCause.message (shapes : Shapes) : TypeCause → String
  | operator op left right =>
    "operator " ++ op.name ++ " is not defined for " ++ left ++ " and " ++ right
  | notArithmetic op => op.name ++ " is not an arithmetic operator"
  | negate kind => "cannot negate " ++ kind
  | invert kind => "cannot apply ! to " ++ kind
  | expectsString what => what ++ " expects a String"
  | expectsInt32 what => what ++ " expects an Int32"
  | expectsDateTime => "expected a DateTime"
  | expectsTimeSpan => "expected a TimeSpan"
  | expectsSequence what => what ++ " expects a sequence"
  | expectsGrouping => "Key expects a grouping"
  | expectsObject member => "'" ++ member ++ "' expects an object"
  | expectsList => "indexing expects a list"
  | expectsPosition => "list index must be an Int32"
  | expectsDoubles => "Pow expects Double arguments"
  | expectsDouble => "Sqrt expects a Double"
  | expectsCondition op kind => op.name ++ " expects a Boolean condition, got " ++ kind
  | needsInstance member => "'" ++ member ++ "' needs an instance"
  | isConstructor method => "'" ++ method ++ "' is a constructor"
  | notProperty op => op.name ++ " is not a property"
  | notMethod op => op.name ++ " is not a method"
  | notConstructor op => op.name ++ " is not a constructor"
  | undefined what kind => what ++ " is not defined for " ++ kind
  | cannotConstruct ty => "cannot construct " ++ ty.text shapes
  | unboundSlot slot => "unbound slot " ++ toString slot
  | condition kind => "condition produced " ++ kind
  | predicate kind => "predicate produced " ++ kind

/-- The message of a failure. -/
def EvalError.message (shapes : Shapes) : EvalError → String
  | nullReference member => "null reference: cannot access '" ++ member ++ "' on a null value"
  | nullableNoValue => "nullable object must have a value"
  | divideByZero => "attempted to divide by zero"
  | overflow cause => "numeric overflow: " ++ cause.message shapes
  | emptySequence => "sequence contains no elements"
  | indexOutOfRange index length =>
    "index " ++ toString index ++ " is out of range for length " ++ toString length
  | invalidArgument cause => "invalid argument: " ++ cause.message shapes
  | notComparable left right => "values of type " ++ left ++ " and " ++ right ++ " cannot be compared"
  | invalidCast kind target => "cannot convert " ++ kind ++ " to " ++ target.text shapes
  | native message => message
  | arity expected actual =>
    "expected " ++ toString expected ++ " arguments, got " ++ toString actual
  | typeError cause => "type error: " ++ cause.message shapes

end RowQuery
