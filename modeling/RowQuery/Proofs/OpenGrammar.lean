import RowQuery.Proofs.Phrases

/-!
The grammar over any actions. How phrases are put together does not depend on how sub-expressions are read, on where
the implicit parameter is kept, or on how a step is repeated. With these left open, the same grammar can be read in
another monad. The readers of the grammar are one instance of it, where what may be nested is handed down in levels
and the implicit parameter is part of the scope.
-/

namespace RowQuery

open Parse

/-- What phrases are read with: a reader of tokens is carried out, a sub-expression or a signed operand is read,
something is read with another implicit parameter, and a step is repeated until it has nothing to do. -/
structure Actions (M : Type → Type) where
  lift {α : Type} (p : Parse α) : M α
  expression : M Expr
  operand : M Expr
  inside {α : Type} (it : Expr) (p : M α) : M α
  repeated {σ : Type} (step : σ → M (Option σ)) (x : σ) : M σ

namespace Actions

variable {M : Type → Type} [Monad M] (ops : Actions M)

/-- One more item if there is a comma. -/
def nextItem {α : Type} (item : List α → M α) (done : List α) : M (Option (List α)) := do
  if ← ops.lift (at? .comma) then
    ops.lift advance
    let next ← item done
    return some (done ++ [next])
  return none

/-- One or more items with commas between them. -/
def separated {α : Type} (item : List α → M α) : M (List α) := do
  let first ← item []
  ops.repeated (ops.nextItem item) [first]

/-- Expressions with commas between them. -/
def arguments : M (List Expr) := ops.separated fun _ => ops.expression

/-- Expressions with commas between them, or none, in parentheses. -/
def argumentList : M (List Expr) := do
  ops.lift (expect .openParen .openParenExpected)
  let args ← if ← ops.lift (at? .closeParen) then pure [] else ops.arguments
  ops.lift (expect .closeParen .closeParenOrCommaExpected)
  return args

/-- A member, by the name at hand and what follows it. -/
def member (receiver : Typing.Receiver) : M Expr := do
  let pos := (← ops.lift token).pos
  let name ← ops.lift Grammar.identifier
  ops.lift advance
  if ← ops.lift (at? .openParen) then
    match receiver.aggregated? (← ops.lift read).catalog name, receiver.expr? with
    | some item, some source =>
      let slot ← ops.lift newSlot
      let args ← ops.inside (.param item slot) ops.argumentList
      ops.lift (typed pos (Typing.aggregate · source slot name args))
    | _, _ =>
      let args ← ops.argumentList
      ops.lift (typed pos (Typing.methodCall · receiver name args))
  else ops.lift (typed pos (Typing.property · receiver name))

/-- The element of a value at the positions in brackets. -/
def element (e : Expr) : M Expr := do
  let pos := (← ops.lift token).pos
  ops.lift advance
  let args ← ops.arguments
  ops.lift (expect .closeBracket .closeBracketOrCommaExpected)
  ops.lift (typed pos (Typing.element · e args))

/-- One field of a new shape. -/
def field (before : List (String × Expr)) : M (String × Expr) := do
  let pos := (← ops.lift token).pos
  let e ← ops.expression
  let name ← ops.lift (Grammar.fieldName pos e)
  if before.any (·.1 == name) then ops.lift (throw ⟨.duplicateIdentifier name, pos⟩)
  return (name, e)

/-- An object of a new shape. -/
def projection : M Expr := do
  ops.lift advance
  ops.lift (expect .openParen .openParenExpected)
  let fields ← ops.separated ops.field
  ops.lift (expect .closeParen .closeParenOrCommaExpected)
  ops.lift (modify fun s =>
    { s with shapes := (s.shapes.request (fields.map fun (name, e) => (name, e.ty))).2 })
  return Typing.projection fields

/-- A conditional written as a call. -/
def conditionalCall : M Expr := do
  let pos := (← ops.lift token).pos
  ops.lift advance
  match ← ops.argumentList with
  | [test, yes, no] => ops.lift (typed pos (Typing.conditional · test yes no))
  | _ => ops.lift (throw ⟨.iifRequiresThreeArgs, pos⟩)

/-- A call of a lambda by its name. -/
def invocation (l : Lambda) : M Expr := do
  let pos := (← ops.lift token).pos
  ops.lift advance
  let args ← ops.argumentList
  ops.lift (typed pos (Typing.invocation · l args))

/-- The name of a type and what follows it. -/
def typeAccess (ty : Ty) : M Expr := do
  let pos := (← ops.lift token).pos
  ops.lift advance
  let ty ← ops.lift (Grammar.typeForm pos ty)
  if ← ops.lift (at? .openParen) then
    let args ← ops.argumentList
    ops.lift (typed pos (Typing.construction · ty args))
  else
    ops.lift (expect .dot .dotOrOpenParenExpected)
    ops.member (.type ty)

/-- A name that is no keyword. -/
def named (text : String) : M Expr := do
  let scope ← ops.lift read
  match (Ty.predefined? text).or (scope.context.lookup? text) with
  | some ty => ops.typeAccess ty
  | none =>
    match scope.symbols.lookup (Text.fold text), scope.it with
    | some (.expr e), _ => ops.lift advance; return e
    | some (.lambda l), _ => ops.invocation l
    | none, some it => ops.member (.value it)
    | none, none => ops.lift (fail (.unknownIdentifier text))

/-- A phrase that starts with a name. -/
def word (text : String) : M Expr := do
  match Text.fold text with
  | "true" => ops.lift advance; return .constant .boolean (.boolean true)
  | "false" => ops.lift advance; return .constant .boolean (.boolean false)
  | "null" => ops.lift advance; return .nullLiteral
  | "it" => ops.lift Grammar.implicit
  | "iif" => ops.conditionalCall
  | "new" => ops.projection
  | _ => ops.named text

/-- A phrase without operators, up to its first member. -/
def primaryStart : M Expr := do
  let t ← ops.lift token
  match t.kind with
  | .identifier => ops.word t.text
  | .stringLiteral => ops.lift (Grammar.literal (Grammar.quotedLiteral? t.text) .invalidCharacterLiteral)
  | .integerLiteral => ops.lift (Grammar.literal (Grammar.integerLiteral? t.text) (.invalidInteger t.text))
  | .realLiteral => ops.lift (Grammar.literal (Grammar.realLiteral? t.text) (.invalidReal t.text))
  | .openParen =>
    ops.lift advance
    let e ← ops.expression
    ops.lift (expect .closeParen .closeParenOrOperatorExpected)
    return e
  | _ => ops.lift (fail .expressionExpected)

/-- One more member or element of an expression, if one follows it. -/
def nextMember (e : Expr) : M (Option Expr) := do
  match (← ops.lift token).kind with
  | .dot => ops.lift advance; return some (← ops.member (.value e))
  | .openBracket => return some (← ops.element e)
  | _ => return none

/-- A phrase without operators. -/
def primary : M Expr := do
  ops.repeated ops.nextMember (← ops.primaryStart)

/-- An operand with the operators before it. -/
def unary : M Expr := do
  let t ← ops.lift token
  match Grammar.unaryOperator? t with
  | none => ops.primary
  | some op =>
    ops.lift advance
    let next ← ops.lift token
    if op = .negate ∧ (next.kind = .integerLiteral ∨ next.kind = .realLiteral) then
      ops.lift (modify fun s => { s with token := ⟨next.kind, "-" ++ next.text, t.pos⟩ })
      ops.primary
    else
      let e ← ops.operand
      ops.lift (typed t.pos (Typing.unary · op t.text e))

/-- One more operand if there is an operator of a level. -/
def nextOperand (k : Nat) (operand : M Expr) (left : Expr) : M (Option Expr) := do
  let t ← ops.lift token
  match Grammar.operators k t with
  | none => return none
  | some combine =>
    ops.lift advance
    let right ← operand
    return some (← ops.lift (combine t left right))

/-- Operands joined by operators of a level from the left. -/
def chain (k : Nat) (operand : M Expr) : M Expr := do
  let first ← operand
  ops.repeated (ops.nextOperand k operand) first

/-- The phrases of a binary level, counted from the tightest one. -/
def binary : Nat → M Expr
  | 0 => ops.unary
  | k + 1 => ops.chain (5 - k) (binary k)

/-- An expression, which may be a conditional. -/
def conditional : M Expr := do
  let pos := (← ops.lift token).pos
  let test ← ops.binary 5
  if ← ops.lift (at? .question) then
    ops.lift advance
    let yes ← ops.expression
    ops.lift (expect .colon .colonExpected)
    let no ← ops.expression
    ops.lift (typed pos (Typing.conditional · test yes no))
  else return test

/-- A whole text that is an expression, converted to a type if one is given. -/
def whole (result : Option Ty) : M Expr := do
  let pos := (← ops.lift token).pos
  let e ← ops.expression
  let converted ← ops.lift (typed pos (Typing.result · e result))
  ops.lift (require .done .syntaxError)
  return converted

/-- A whole text that is a list of keys, each with a direction. -/
def ordering : M (List (Expr × Bool)) := do
  let keys ← ops.separated fun _ => do
    let e ← ops.expression
    return (e, ← ops.lift Grammar.direction)
  ops.lift (require .done .syntaxError)
  return keys

end Actions

/-! ### The readers of the grammar -/

namespace Grammar

/-- The actions of the readers of a level. -/
def Level.actions (inner : Level) : Actions Parse where
  lift p := p
  expression := inner.expression
  operand := inner.operand
  inside it p := withReader ({ · with it := some it }) p
  repeated := repeatStep

variable (inner : Level)

theorem actions_lift {α : Type} (p : Parse α) : inner.actions.lift p = p := rfl

theorem actions_expression : inner.actions.expression = inner.expression := rfl

theorem actions_argumentList : inner.actions.argumentList = argumentList inner := rfl

theorem actions_member (receiver : Typing.Receiver) : inner.actions.member receiver = member inner receiver := rfl

theorem actions_projection : inner.actions.projection = projection inner := rfl

theorem actions_conditionalCall : inner.actions.conditionalCall = conditionalCall inner := rfl

theorem actions_typeAccess (ty : Ty) : inner.actions.typeAccess ty = typeAccess inner ty := rfl

theorem actions_named (text : String) : inner.actions.named text = named inner text := by
  unfold Actions.named named
  simp only [actions_lift, actions_typeAccess, actions_member]
  rfl

theorem actions_word (text : String) : inner.actions.word text = word inner text := by
  unfold Actions.word word
  rewrite [actions_conditionalCall, actions_projection, actions_named]
  rfl

theorem actions_primaryStart : inner.actions.primaryStart = primaryStart inner := by
  have hword : inner.actions.word = word inner := funext (actions_word inner)
  unfold Actions.primaryStart primaryStart
  rewrite [hword]
  rfl

theorem actions_primary : inner.actions.primary = primary inner := by
  unfold Actions.primary primary
  rw [actions_primaryStart]
  rfl

theorem actions_unary : inner.actions.unary = unary inner := by
  unfold Actions.unary unary
  rewrite [actions_primary]
  rfl

/-- The binary levels, counted from the tightest one. -/
theorem actions_binary {k : Nat} (hk : k ≤ 5) : inner.actions.binary k = reader inner (6 - k) := by
  induction k with
  | zero => exact actions_unary inner
  | succ k ih =>
      have hchain : reader inner (5 - k) = chain (reader inner (5 - k + 1)) (operators (5 - k)) :=
        reader_eq_chain (by omega)
      rw [Actions.binary, ih (by omega), show 6 - (k + 1) = 5 - k by omega, hchain, show 6 - k = 5 - k + 1 by omega]
      rfl

theorem actions_conditional : inner.actions.conditional = conditional inner := by
  unfold Actions.conditional conditional
  rw [actions_binary inner (Nat.le_refl 5)]
  rfl

theorem actions_whole (result : Option Ty) : (level maxDepth).actions.whole result = whole result := rfl

theorem actions_ordering : (level maxDepth).actions.ordering = ordering := rfl

end Grammar

end RowQuery
