import RowQuery.Token
import RowQuery.Typing

/-!
The grammar of expressions. Reading is typed as it goes: each phrase is handed to its typing rule as
soon as its parts are read, so the first fault in the text is the one reported. Sub-expressions and
signs may be nested to a fixed depth, by which the reading is structurally recursive.
-/

namespace RowQuery

/-- What a name stands for. -/
inductive Symbol where
  | expr (e : Expr)
  | lambda (l : Lambda)

/-- What names may refer to: the declared classes, the named types, the symbols by their names in small
letters, and the implicit parameter. -/
structure Scope where
  catalog : Catalog
  context : Context
  symbols : List (String × Symbol)
  it : Option Expr

/-- The state of a reading: the token at hand, those after it and how they end, the number of slots in
use, and the shapes made so far. -/
structure Reading where
  token : Token
  rest : List Token
  stop : Stop
  slots : Nat
  shapes : Shapes

/-- A reader of phrases. It keeps its state when it fails. -/
abbrev Parse := ReaderT Scope (ExceptT CompileError (StateM Reading))

namespace Parse

/-- Moves on to the next token; at the end of the text there are only empty ones. -/
def advance : Parse Unit := do
  let s ← get
  match s.rest, s.stop with
  | t :: ts, _ => set { s with token := t, rest := ts }
  | [], .finished pos => set { s with token := ⟨.done, "", pos⟩ }
  | [], .failed e => throw e

/-- The token at hand. -/
def token : Parse Token := return (← get).token

/-- Whether the token at hand is of a kind. -/
def at? (kind : TokenKind) : Parse Bool := return (← token).kind == kind

/-- Fails at the token at hand. -/
def fail {α : Type} (fault : Fault) : Parse α := do throw ⟨fault, (← token).pos⟩

/-- Fails unless the token at hand is of a kind. -/
def require (kind : TokenKind) (fault : Fault) : Parse Unit := do
  if !(← at? kind) then fail fault

/-- Moves past a token of a kind, and fails if there is another. -/
def expect (kind : TokenKind) (fault : Fault) : Parse Unit := do
  require kind fault
  advance

/-- Applies a typing rule to a phrase that is blamed at a position. -/
def typed (pos : Nat) (rule : Catalog → Except Fault Expr) : Parse Expr := do
  match rule (← read).catalog with
  | .ok e => return e
  | .error fault => throw ⟨fault, pos⟩

/-- A slot that is not in use yet. -/
def newSlot : Parse Nat := modifyGet fun s => (s.slots, { s with slots := s.slots + 1 })

/-- Repeats a step at most so many times, until it has nothing to do. -/
def repeatUpTo {σ : Type} (step : σ → Parse (Option σ)) : Nat → σ → Parse σ
  | 0, s => pure s
  | n + 1, s => do
    match ← step s with
    | some next => repeatUpTo step n next
    | none => pure s

/-- Repeats a step that consumes a token, until it has nothing to do. -/
def repeatStep {σ : Type} (step : σ → Parse (Option σ)) (s : σ) : Parse σ := do
  repeatUpTo step ((← get).rest.length + 2) s

/-- One more item if there is a comma. -/
def nextItem {α : Type} (item : List α → Parse α) (done : List α) : Parse (Option (List α)) := do
  if ← at? .comma then
    advance
    let next ← item done
    return some (done ++ [next])
  return none

/-- One or more items with commas between them; an item is read in view of those before it. -/
def separated {α : Type} (item : List α → Parse α) : Parse (List α) := do
  let first ← item []
  repeatStep (nextItem item) [first]

/-- One more operand if there is an operator. -/
def nextOperand (operand : Parse Expr)
    (operator? : Token → Option (Token → Expr → Expr → Parse Expr)) (left : Expr) :
    Parse (Option Expr) := do
  let t ← token
  match operator? t with
  | none => return none
  | some combine =>
    advance
    let right ← operand
    return some (← combine t left right)

/-- Operands joined by operators from the left. -/
def chain (operand : Parse Expr) (operator? : Token → Option (Token → Expr → Expr → Parse Expr)) :
    Parse Expr := do
  let first ← operand
  repeatStep (nextOperand operand operator?) first

end Parse

namespace Grammar

open Parse

/-- What a phrase may hold inside it: the readers of a sub-expression and of a signed operand. -/
structure Level where
  expression : Parse Expr
  operand : Parse Expr

/-- The name at hand, without the mark that keeps a name from being read as a keyword. -/
def identifier : Parse String := do
  require .identifier .identifierExpected
  let text := (← token).text
  match text.toList with
  | '@' :: c :: cs => return String.ofList (c :: cs)
  | _ => return text

/-- The content of a literal: between the delimiters, a doubled delimiter stands for one. -/
def undoubled (quote : Char) : List Char → List Char
  | c :: d :: cs =>
    if c = quote ∧ d = quote then quote :: undoubled quote cs else c :: undoubled quote (d :: cs)
  | cs => cs

/-- The literal that a quoted text denotes. Single quotes hold exactly one character. -/
def quotedLiteral? (text : String) : Option Expr :=
  match text.toList with
  | [] => none
  | quote :: rest =>
    let content := undoubled quote rest.dropLast
    let value := String.ofList content
    if quote = '\'' then
      match content with
      | [c] => some (.literal .char (.char c) value)
      | _ => none
    else some (.literal .string (.string value) value)

/-- The literal that digits denote, after a minus sign or without: of the integral types of at least 32
bits the first that holds it, only signed ones after a minus sign. -/
def integerLiteral? (text : String) : Option Expr :=
  let kinds : List IntKind :=
    if text.toList.head? = some '-' then [.int32, .int64] else [.int32, .uint32, .int64, .uint64]
  (Digits.int? text.toList).bind fun n =>
    kinds.findSome? fun k => (Word.ofInt? k n).map fun w => .literal (.int k) (.int k w) text

/-- The literal that a real number denotes; a suffix makes it a short one. -/
def realLiteral? (text : String) : Option Expr :=
  match text.toList.getLast? with
  | some 'f' | some 'F' =>
    (Binary.read? (String.ofList text.toList.dropLast)).map fun x => .literal .single (.single x) text
  | _ => (Binary.read? text).map fun x => .literal .double (.double x) text

/-- A literal that takes up the token at hand. -/
def literal (reading : Option Expr) (fault : Fault) : Parse Expr := do
  match reading with
  | some e => advance; return e
  | none => fail fault

/-- Expressions with commas between them. -/
def arguments (inner : Level) : Parse (List Expr) := separated fun _ => inner.expression

/-- Expressions with commas between them, or none, in parentheses. -/
def argumentList (inner : Level) : Parse (List Expr) := do
  expect .openParen .openParenExpected
  let args ← if ← at? .closeParen then pure [] else arguments inner
  expect .closeParen .closeParenOrCommaExpected
  return args

/-- A member, by the name at hand and what follows it. The arguments of an operation on items see each
item as the implicit parameter. -/
def member (inner : Level) (receiver : Typing.Receiver) : Parse Expr := do
  let pos := (← token).pos
  let name ← identifier
  advance
  if ← at? .openParen then
    match receiver.aggregated? (← read).catalog name, receiver.expr? with
    | some item, some source =>
      let slot ← newSlot
      let args ← withReader ({ · with it := some (.param item slot) }) (argumentList inner)
      typed pos (Typing.aggregate · source slot name args)
    | _, _ =>
      let args ← argumentList inner
      typed pos (Typing.methodCall · receiver name args)
  else typed pos (Typing.property · receiver name)

/-- The element of a value at the positions in brackets. -/
def element (inner : Level) (e : Expr) : Parse Expr := do
  let pos := (← token).pos
  advance
  let args ← arguments inner
  expect .closeBracket .closeBracketOrCommaExpected
  typed pos (Typing.element · e args)

/-- The name of a field whose value was read at a position: the one that follows it, which may be left
out if the value is a property. -/
def fieldName (pos : Nat) (e : Expr) : Parse String := do
  if (← token).isWord "as" then
    advance
    let name ← identifier
    advance
    return name
  match e with
  | .property _ p _ => return p.name
  | _ => throw ⟨.missingAsClause, pos⟩

/-- One field of a new shape: a value and a name that no field before it has. -/
def field (inner : Level) (before : List (String × Expr)) : Parse (String × Expr) := do
  let pos := (← token).pos
  let e ← inner.expression
  let name ← fieldName pos e
  if before.any (·.1 == name) then throw ⟨.duplicateIdentifier name, pos⟩
  return (name, e)

/-- An object of a new shape. -/
def projection (inner : Level) : Parse Expr := do
  advance
  expect .openParen .openParenExpected
  let fields ← separated (field inner)
  expect .closeParen .closeParenOrCommaExpected
  -- the expression constructs the shape that is asked for here
  modify fun s =>
    { s with shapes := (s.shapes.request (fields.map fun (name, e) => (name, e.ty))).2 }
  return Typing.projection fields

/-- A conditional written as a call. -/
def conditionalCall (inner : Level) : Parse Expr := do
  let pos := (← token).pos
  advance
  match ← argumentList inner with
  | [test, yes, no] => typed pos (Typing.conditional · test yes no)
  | _ => throw ⟨.iifRequiresThreeArgs, pos⟩

/-- The type meant by the name of one that was read at a position: a question mark after it asks for its
nullable form. -/
def typeForm (pos : Nat) (ty : Ty) : Parse Ty := do
  if ← at? .question then
    match Typing.nullable ty with
    | .ok form => advance; return form
    | .error fault => throw ⟨fault, pos⟩
  return ty

/-- The name of a type and what follows it: arguments or a static member. -/
def typeAccess (inner : Level) (ty : Ty) : Parse Expr := do
  let pos := (← token).pos
  advance
  let ty ← typeForm pos ty
  if ← at? .openParen then
    let args ← argumentList inner
    typed pos (Typing.construction · ty args)
  else
    expect .dot .dotOrOpenParenExpected
    member inner (.type ty)

/-- The implicit parameter. -/
def implicit : Parse Expr := do
  match (← read).it with
  | some it => advance; return it
  | none => fail .noItInScope

/-- A name that is no keyword: of a type, of a symbol, or of a member of the implicit parameter. -/
def named (inner : Level) (text : String) : Parse Expr := do
  let scope ← read
  match (Ty.predefined? text).or (scope.context.lookup? text) with
  | some ty => typeAccess inner ty
  | none =>
    match scope.symbols.lookup (Text.fold text), scope.it with
    | some (.expr e), _ => advance; return e
    | some (.lambda l), _ =>
      let pos := (← token).pos
      advance
      let args ← argumentList inner
      typed pos (Typing.invocation · l args)
    | none, some it => member inner (.value it)
    | none, none => fail (.unknownIdentifier text)

/-- A phrase that starts with a name. -/
def word (inner : Level) (text : String) : Parse Expr := do
  match Text.fold text with
  | "true" => advance; return .constant .boolean (.boolean true)
  | "false" => advance; return .constant .boolean (.boolean false)
  | "null" => advance; return .nullLiteral
  | "it" => implicit
  | "iif" => conditionalCall inner
  | "new" => projection inner
  | _ => named inner text

/-- A phrase without operators, up to its first member. -/
def primaryStart (inner : Level) : Parse Expr := do
  let t ← token
  match t.kind with
  | .identifier => word inner t.text
  | .stringLiteral => literal (quotedLiteral? t.text) .invalidCharacterLiteral
  | .integerLiteral => literal (integerLiteral? t.text) (.invalidInteger t.text)
  | .realLiteral => literal (realLiteral? t.text) (.invalidReal t.text)
  | .openParen =>
    advance
    let e ← inner.expression
    expect .closeParen .closeParenOrOperatorExpected
    return e
  | _ => fail .expressionExpected

/-- One more member or element of an expression, if one follows it. -/
def nextMember (inner : Level) (e : Expr) : Parse (Option Expr) := do
  match (← token).kind with
  | .dot => advance; return some (← member inner (.value e))
  | .openBracket => return some (← element inner e)
  | _ => return none

/-- A phrase without operators. -/
def primary (inner : Level) : Parse Expr := do
  repeatStep (nextMember inner) (← primaryStart inner)

/-- The operator that stands before an operand, if there is one. -/
def unaryOperator? (t : Token) : Option UnaryOp :=
  if t.kind = .minus then some .negate
  else if t.kind = .exclamation ∨ t.isWord "not" then some .not
  else none

/-- An operand with the operators before it. A minus sign before digits is part of the literal. -/
def unary (inner : Level) : Parse Expr := do
  let t ← token
  match unaryOperator? t with
  | none => primary inner
  | some op =>
    advance
    let next ← token
    if op = .negate ∧ (next.kind = .integerLiteral ∨ next.kind = .realLiteral) then
      modify fun s => { s with token := ⟨next.kind, "-" ++ next.text, t.pos⟩ }
      primary inner
    else
      let e ← inner.operand
      typed t.pos (Typing.unary · op t.text e)

/-- How an operator joins two operands. -/
def joining (rule : Catalog → String → Expr → Expr → Except Fault Expr) :
    Token → Expr → Expr → Parse Expr :=
  fun t left right => typed t.pos (rule · t.text left right)

def multiplicativeOperator? (t : Token) : Option BinaryOp :=
  match t.kind with
  | .asterisk => some .multiply
  | .slash => some .divide
  | .percent => some .modulo
  | _ => if t.isWord "mod" then some .modulo else none

def multiplicative (inner : Level) : Parse Expr :=
  chain (unary inner) fun t => (multiplicativeOperator? t).map fun op =>
    joining (Typing.arithmetic · Signatures.arithmetic op)

def additive (inner : Level) : Parse Expr :=
  chain (multiplicative inner) fun t =>
    match t.kind with
    | .plus => some (joining Typing.sum)
    | .minus => some (joining (Typing.arithmetic · Signatures.subtract .subtract))
    | .ampersand => some fun _ left right => return Typing.concatenation left right
    | _ => none

def comparisonOperator? : TokenKind → Option BinaryOp
  | .equal | .doubleEqual => some .equal
  | .exclamationEqual | .lessGreater => some .notEqual
  | .greaterThan => some .greaterThan
  | .greaterThanEqual => some .greaterThanOrEqual
  | .lessThan => some .lessThan
  | .lessThanEqual => some .lessThanOrEqual
  | _ => none

def comparison (inner : Level) : Parse Expr :=
  chain (additive inner) fun t => (comparisonOperator? t.kind).map fun op =>
    joining (Typing.comparison · op)

def conjunction (inner : Level) : Parse Expr :=
  chain (comparison inner) fun t =>
    if t.kind = .doubleAmpersand ∨ t.isWord "and" then some (joining (Typing.logical · .andAlso))
    else none

def disjunction (inner : Level) : Parse Expr :=
  chain (conjunction inner) fun t =>
    if t.kind = .doubleBar ∨ t.isWord "or" then some (joining (Typing.logical · .orElse)) else none

/-- An expression, which may be a conditional. -/
def conditional (inner : Level) : Parse Expr := do
  let pos := (← token).pos
  let test ← disjunction inner
  if ← at? .question then
    advance
    let yes ← inner.expression
    expect .colon .colonExpected
    let no ← inner.expression
    typed pos (Typing.conditional · test yes no)
  else return test

/-- The readers of what may be nested so many times more. -/
def level : Nat → Level
  | 0 => ⟨fail .tooDeep, fail .tooDeep⟩
  | n + 1 => ⟨conditional (level n), unary (level n)⟩

/-- The number of times that phrases may be nested in each other. -/
def maxDepth : Nat := 64

/-- An expression. -/
def expression : Parse Expr := (level maxDepth).expression

/-- A whole text that is an expression, converted to a type if one is given. -/
def whole (result : Option Ty) : Parse Expr := do
  let pos := (← token).pos
  let e ← expression
  let converted ← typed pos (Typing.result · e result)
  require .done .syntaxError
  return converted

/-- The direction of a key, upward if it is not said. -/
def direction : Parse Bool := do
  let t ← token
  if t.isWord "asc" || t.isWord "ascending" then
    advance
    return true
  if t.isWord "desc" || t.isWord "descending" then
    advance
    return false
  return true

/-- A whole text that is a list of keys, each with a direction. -/
def ordering : Parse (List (Expr × Bool)) := do
  let keys ← separated fun _ => do
    let e ← expression
    return (e, ← direction)
  require .done .syntaxError
  return keys

end Grammar

end RowQuery
