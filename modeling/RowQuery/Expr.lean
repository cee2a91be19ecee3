import RowQuery.Member

/-!
Typed expressions. Every node carries the type that was found for it. Parameters and the variables of
aggregates are read from numbered slots, so that an expression needs no names to be evaluated.
-/

namespace RowQuery

inductive UnaryOp where
  | negate
  | not
deriving DecidableEq, Repr

inductive BinaryOp where
  | orElse | andAlso
  | equal | notEqual | lessThan | lessThanOrEqual | greaterThan | greaterThanOrEqual
  | add | subtract | multiply | divide | modulo
deriving DecidableEq, Repr

/-- The operations on the items of a sequence. -/
inductive AggregateOp where
  | filter | any | all | count | min | max | sum | average
deriving DecidableEq, Repr

namespace BinaryOp

def isEquality (op : BinaryOp) : Bool := op == equal || op == notEqual

/-- The name of an operator in messages. -/
def name : BinaryOp → String
  | orElse => "OrElse"
  | andAlso => "AndAlso"
  | equal => "Equal"
  | notEqual => "NotEqual"
  | lessThan => "LessThan"
  | lessThanOrEqual => "LessThanOrEqual"
  | greaterThan => "GreaterThan"
  | greaterThanOrEqual => "GreaterThanOrEqual"
  | add => "Add"
  | subtract => "Subtract"
  | multiply => "Multiply"
  | divide => "Divide"
  | modulo => "Modulo"

/-- The operators in the order of their declaration. -/
def all : List BinaryOp :=
  [orElse, andAlso, equal, notEqual, lessThan, lessThanOrEqual, greaterThan, greaterThanOrEqual, add,
   subtract, multiply, divide, modulo]

/-- The operator of that name. -/
def ofName? (name : String) : Option BinaryOp := all.find? (·.name == name)

end BinaryOp

namespace AggregateOp

/-- The name by which expressions call an aggregate. -/
def name : AggregateOp → String
  | filter => "Where"
  | any => "Any"
  | all => "All"
  | count => "Count"
  | min => "Min"
  | max => "Max"
  | sum => "Sum"
  | average => "Average"

/-- The aggregates in the order of their declaration. -/
def list : List AggregateOp := [filter, any, all, count, min, max, sum, average]

/-- The aggregate of exactly that name. -/
def ofName? (name : String) : Option AggregateOp := list.find? (·.name == name)

end AggregateOp

/-- A parameter and the slot that holds its value. The implicit parameter has no name. -/
structure Param where
  name : Option String
  ty : Ty
  slot : Nat

/-- A typed expression. A literal keeps the text it was written as, so that it can be read again as a
value of another type. -/
inductive Expr where
  | literal (ty : Ty) (value : Value) (text : String)
  | constant (ty : Ty) (value : Value)
  | param (ty : Ty) (slot : Nat)
  | property (ty : Ty) (prop : Property) (receiver : Option Expr)
  | call (ty : Ty) (method : Method) (receiver : Option Expr) (args : List Expr)
  /-- An operation on the items of `source`; `body` is evaluated with each item in turn in `slot`. -/
  | aggregate (ty : Ty) (op : AggregateOp) (slot : Nat) (source : Expr) (body : Option Expr)
  | index (ty : Ty) (list position : Expr)
  | unary (ty : Ty) (op : UnaryOp) (operand : Expr)
  | binary (ty : Ty) (op : BinaryOp) (left right : Expr)
  | conditional (ty : Ty) (test yes no : Expr)
  /-- A conversion; a checked one fails where the value does not fit. -/
  | convert (ty : Ty) (checked : Bool) (operand : Expr)
  | new (ty : Ty) (ctor : Method) (args : List Expr)
  /-- An object of a shape, from one value for each field. -/
  | init (c : Class) (values : List Expr)
  | invoke (ty : Ty) (params : List Param) (slots : Nat) (body : Expr) (args : List Expr)

namespace Expr

/-- The type of an expression. -/
def ty : Expr → Ty
  | literal ty .. | constant ty .. | param ty .. | property ty .. | call ty .. | aggregate ty ..
  | index ty .. | unary ty .. | binary ty .. | conditional ty .. | convert ty .. | new ty ..
  | invoke ty .. => ty
  | init c _ => .cls c

/-- The literal for the absent value. -/
def nullLiteral : Expr := .literal .object .null "null"

def isNullLiteral : Expr → Bool
  | literal _ .null _ => true
  | _ => false

/-- The text of a literal other than that for the absent value. -/
def literalText? : Expr → Option String
  | literal _ .null _ => none
  | literal _ _ text => some text
  | _ => none

end Expr

/-- A compiled expression: its parameters, its body, and the number of slots that the body needs. -/
structure Lambda where
  params : List Param
  body : Expr
  slots : Nat

namespace Lambda

def resultType (l : Lambda) : Ty := l.body.ty

def paramTypes (l : Lambda) : List Ty := l.params.map (·.ty)

end Lambda

/-- One key of an ordering. -/
structure SortKey where
  selector : Lambda
  ascending : Bool

end RowQuery
