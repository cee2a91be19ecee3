import RowQuery.Ty

/-!
What can be wrong with the text of an expression, and where. Each fault is a cause of its own; its
message names the types involved, and the position is the number of characters before the place where
the fault was noticed.
-/

namespace RowQuery

/-- A type in a message, or the word for the literal that has none. -/
inductive TypeRef where
  | ty (t : Ty)
  | null

/-- A cause of failure. -/
inductive Fault where
  | unterminatedString
  | invalidCharacter (c : Char)
  | digitExpected
  | invalidCharacterLiteral
  | invalidInteger (text : String)
  | invalidReal (text : String)
  | syntaxError
  | expressionExpected
  | identifierExpected
  | colonExpected
  | openParenExpected
  | closeParenOrOperatorExpected
  | closeParenOrCommaExpected
  | dotOrOpenParenExpected
  | closeBracketOrCommaExpected
  | tooDeep
  | duplicateIdentifier (name : String)
  | unknownIdentifier (name : String)
  | noItInScope
  | namedValuesNotLast
  | missingAsClause
  | typeMismatch (expected : Ty)
  | iifRequiresThreeArgs
  | firstMustBeBoolean
  | bothConvert (a b : TypeRef)
  | neitherConverts (a b : TypeRef)
  | incompatibleOperand (op : String) (operand : Ty)
  | incompatibleOperands (op : String) (left right : Ty)
  | literalOutOfRange (text : String) (ty : Ty)
  | cannotConvert (source target : Ty)
  | noNullableForm (ty : Ty)
  | unknownMember (name : String) (ty : Ty)
  | noApplicableMethod (name : String) (ty : Ty)
  | ambiguousMethod (name : String) (ty : Ty)
  | noApplicableAggregate (name : String)
  | noMatchingConstructor (ty : Ty)
  | ambiguousConstructor (ty : Ty)
  | noApplicableIndexer (ty : Ty)
  | ambiguousIndexer (ty : Ty)
  | severalIndices
  | invalidIndex
  | argsIncompatible

/-- A fault and the number of characters before the place where it was noticed. -/
structure CompileError where
  fault : Fault
  position : Nat

/-- A type, or the word for the literal without one. -/
def TypeRef.text (shapes : Shapes) : TypeRef → String
  | .ty t => t.text shapes
  | .null => "null"

namespace Fault

/-- The name by which reports call a fault. -/
def name : Fault → String
  | unterminatedString => "UnterminatedStringLiteral"
  | invalidCharacter _ => "InvalidCharacter"
  | digitExpected => "DigitExpected"
  | invalidCharacterLiteral => "InvalidCharacterLiteral"
  | invalidInteger _ => "InvalidIntegerLiteral"
  | invalidReal _ => "InvalidRealLiteral"
  | syntaxError => "SyntaxError"
  | expressionExpected => "ExpressionExpected"
  | identifierExpected => "IdentifierExpected"
  | colonExpected => "ColonExpected"
  | openParenExpected => "OpenParenExpected"
  | closeParenOrOperatorExpected => "CloseParenOrOperatorExpected"
  | closeParenOrCommaExpected => "CloseParenOrCommaExpected"
  | dotOrOpenParenExpected => "DotOrOpenParenExpected"
  | closeBracketOrCommaExpected => "CloseBracketOrCommaExpected"
  | tooDeep => "ExpressionTooDeep"
  | duplicateIdentifier _ => "DuplicateIdentifier"
  | unknownIdentifier _ => "UnknownIdentifier"
  | noItInScope => "NoItInScope"
  | namedValuesNotLast => "NamedValuesNotLast"
  | missingAsClause => "MissingAsClause"
  | typeMismatch _ => "ExpressionTypeMismatch"
  | iifRequiresThreeArgs => "IifRequiresThreeArgs"
  | firstMustBeBoolean => "FirstExprMustBeBool"
  | bothConvert _ _ => "BothTypesConvertToOther"
  | neitherConverts _ _ => "NeitherTypeConvertsToOther"
  | incompatibleOperand _ _ => "IncompatibleOperand"
  | incompatibleOperands _ _ _ => "IncompatibleOperands"
  | literalOutOfRange _ _ => "LiteralOutOfRange"
  | cannotConvert _ _ => "CannotConvertValue"
  | noNullableForm _ => "TypeHasNoNullableForm"
  | unknownMember _ _ => "UnknownPropertyOrField"
  | noApplicableMethod _ _ => "NoApplicableMethod"
  | ambiguousMethod _ _ => "AmbiguousMethodInvocation"
  | noApplicableAggregate _ => "NoApplicableAggregate"
  | noMatchingConstructor _ => "NoMatchingConstructor"
  | ambiguousConstructor _ => "AmbiguousConstructorInvocation"
  | noApplicableIndexer _ => "NoApplicableIndexer"
  | ambiguousIndexer _ => "AmbiguousIndexerInvocation"
  | severalIndices => "CannotIndexMultiDimArray"
  | invalidIndex => "InvalidIndex"
  | argsIncompatible => "ArgsIncompatibleWithLambda"

/-- The particulars of a fault, as reports list them. -/
def details (shapes : Shapes) : Fault → List String
  | invalidCharacter c => [String.singleton c]
  | invalidInteger text | invalidReal text => [text]
  | duplicateIdentifier name | unknownIdentifier name | noApplicableAggregate name => [name]
  | typeMismatch ty | noNullableForm ty | noMatchingConstructor ty | ambiguousConstructor ty
  | noApplicableIndexer ty | ambiguousIndexer ty => [ty.text shapes]
  | bothConvert a b | neitherConverts a b => [a.text shapes, b.text shapes]
  | incompatibleOperand op operand => [op, operand.text shapes]
  | incompatibleOperands op left right => [op, left.text shapes, right.text shapes]
  | literalOutOfRange text ty => [text, ty.text shapes]
  | cannotConvert source target => [source.text shapes, target.text shapes]
  | unknownMember name ty | noApplicableMethod name ty | ambiguousMethod name ty =>
    [name, ty.text shapes]
  | _ => []

/-- The message of a fault. -/
def message (shapes : Shapes) : Fault → String
  | unterminatedString => "Unterminated string literal"
  | invalidCharacter c => "Syntax error '" ++ String.singleton c ++ "'"
  | digitExpected => "Digit expected"
  | invalidCharacterLiteral => "Character literal must contain exactly one character"
  | invalidInteger text => "Invalid integer literal '" ++ text ++ "'"
  | invalidReal text => "Invalid real literal '" ++ text ++ "'"
  | syntaxError => "Syntax error"
  | expressionExpected => "Expression expected"
  | identifierExpected => "Identifier expected"
  | colonExpected => "':' expected"
  | openParenExpected => "'(' expected"
  | closeParenOrOperatorExpected => "')' or operator expected"
  | closeParenOrCommaExpected => "')' or ',' expected"
  | dotOrOpenParenExpected => "'.' or '(' expected"
  | closeBracketOrCommaExpected => "']' or ',' expected"
  | tooDeep => "Expression is nested too deeply"
  | duplicateIdentifier name => "The identifier '" ++ name ++ "' was defined more than once"
  | unknownIdentifier name => "Unknown identifier '" ++ name ++ "'"
  | noItInScope => "No 'it' is in scope"
  | namedValuesNotLast => "Named values must be the last argument"
  | missingAsClause => "Expression is missing an 'as' clause"
  | typeMismatch expected => "Expression of type '" ++ expected.text shapes ++ "' expected"
  | iifRequiresThreeArgs => "The 'iif' function requires three arguments"
  | firstMustBeBoolean => "The first expression must be of type 'Boolean'"
  | bothConvert a b =>
    "Both of the types '" ++ a.text shapes ++ "' and '" ++ b.text shapes ++ "' convert to the other"
  | neitherConverts a b =>
    "Neither of the types '" ++ a.text shapes ++ "' and '" ++ b.text shapes ++
      "' converts to the other"
  | incompatibleOperand op operand =>
    "Operator '" ++ op ++ "' incompatible with operand type '" ++ operand.text shapes ++ "'"
  | incompatibleOperands op left right =>
    "Operator '" ++ op ++ "' incompatible with operand types '" ++ left.text shapes ++ "' and '" ++
      right.text shapes ++ "'"
  | literalOutOfRange text ty =>
    "Literal '" ++ text ++ "' is out of range for type '" ++ ty.text shapes ++ "'"
  | cannotConvert source target =>
    "A value of type '" ++ source.text shapes ++ "' cannot be converted to type '" ++
      target.text shapes ++ "'"
  | noNullableForm ty => "Type '" ++ ty.text shapes ++ "' has no nullable form"
  | unknownMember name ty =>
    "No property or field '" ++ name ++ "' exists in type '" ++ ty.text shapes ++ "'"
  | noApplicableMethod name ty =>
    "No applicable method '" ++ name ++ "' exists in type '" ++ ty.text shapes ++ "'"
  | ambiguousMethod name ty =>
    "Ambiguous invocation of method '" ++ name ++ "' in type '" ++ ty.text shapes ++ "'"
  | noApplicableAggregate name => "No applicable aggregate method '" ++ name ++ "' exists"
  | noMatchingConstructor ty => "No matching constructor in type '" ++ ty.text shapes ++ "'"
  | ambiguousConstructor ty => "Ambiguous invocation of '" ++ ty.text shapes ++ "' constructor"
  | noApplicableIndexer ty => "No applicable indexer exists in type '" ++ ty.text shapes ++ "'"
  | ambiguousIndexer ty => "Ambiguous invocation of indexer in type '" ++ ty.text shapes ++ "'"
  | severalIndices => "Indexing of multi-dimensional arrays is not supported"
  | invalidIndex => "Array index must be an integer expression"
  | argsIncompatible => "Argument list incompatible with lambda expression"

end Fault

/-- The message of an error with its position. -/
def CompileError.message (shapes : Shapes) (e : CompileError) : String :=
  e.fault.message shapes ++ " (at index " ++ toString e.position ++ ")"

end RowQuery
