import RowQuery.Proofs.Slots
import RowQuery.Typing

/-!
Typing does not look at slots, nor at whether a parameter or a value stands somewhere. Every rule, applied to
operands after a substitution, gives what it gives for the operands themselves, substituted; conversions and
the choice of overloads are alike. In particular slots may be renamed.
-/

namespace RowQuery

variable {σ : Substitution} {cat : Catalog}

open RowQuery.Expr

namespace Expr

/-- What stands for a parameter is no literal, so a substitution makes none and takes none away. -/
@[simp]
theorem isNullLiteral_substitute (e : Expr) : (e.substitute σ).isNullLiteral = e.isNullLiteral := by
  cases e with
  | param ty n => exact σ.of_leaf (P := fun e => e.isNullLiteral = false) (fun _ => rfl) fun _ => rfl
  | _ => rfl

@[simp]
theorem literalText?_substitute (e : Expr) : (e.substitute σ).literalText? = e.literalText? := by
  cases e with
  | param ty n => exact σ.of_leaf (P := fun e => e.literalText? = none) (fun _ => rfl) fun _ => rfl
  | _ => rfl

@[simp]
theorem reread?_substitute (e : Expr) (t : Ty) : Literal.reread? (e.substitute σ) t = Literal.reread? e t := by
  cases e with
  | param ty n => exact σ.of_leaf (P := fun e => Literal.reread? e t = none) (fun _ => rfl) fun _ => rfl
  | _ => rfl

end Expr

/-- Only the type of an operand and the text of a literal decide how it is promoted. -/
@[simp]
theorem Catalog.promote?_substitute (e : Expr) (t : Ty) (exact : Bool) :
    cat.promote? (e.substitute σ) t exact = (cat.promote? e t exact).map (substitute σ) := by
  simp only [promote?, ty_substitute, isNullLiteral_substitute, reread?_substitute]
  split
  · rfl
  · split
    · rfl
    · split
      · split <;> rfl
      · rfl

/-! ### Overloads -/

/-- An applicable overload after a substitution in the operands as it uses them. -/
def Applicable.substitute (σ : Substitution) (m : Applicable) : Applicable :=
  { m with args := m.args.map (.substitute σ) }

def Resolution.substitute (σ : Substitution) : Resolution → Resolution
  | noMatch => noMatch
  | found choice => found (choice.substitute σ)
  | ambiguous count => ambiguous count

namespace Overload

/-- A chosen member after a substitution in its arguments. -/
def MemberChoice.substitute {α : Type} (σ : Substitution) : MemberChoice α → MemberChoice α
  | none => none
  | found member args => found member (args.map (.substitute σ))
  | ambiguous => ambiguous

theorem promoteAll?_substitute (args : List Expr) (params : List Ty) :
    promoteAll? cat (args.map (substitute σ)) params =
      (promoteAll? cat args params).map (List.map (substitute σ)) := by
  induction args generalizing params with
  | nil => cases params <;> rfl
  | cons e args ih =>
      cases params with
      | nil => rfl
      | cons t params =>
          rw [List.map_cons, promoteAll?, promoteAll?, Catalog.promote?_substitute, ih]
          cases cat.promote? e t false with
          | none => rfl
          | some first => cases promoteAll? cat args params <;> rfl

/-- Which of two overloads suits an operand better depends on its type alone. -/
theorem comparisons_substitute (args : List Expr) (a b : List Ty) :
    comparisons cat (args.map (substitute σ)) a b = comparisons cat args a b := by
  rw [comparisons, comparisons, List.zip_map_left, List.map_map]
  refine List.map_congr_left fun x _ => ?_
  simp

theorem isBetter_substitute (args : List Expr) (a b : List Ty) :
    isBetter cat (args.map (substitute σ)) a b = isBetter cat args a b := by
  rw [isBetter, isBetter, comparisons_substitute]

/-- The same overloads are applicable. -/
theorem applicable_substitute (candidates : List (List Ty)) (args : List Expr) :
    applicable cat candidates (args.map (substitute σ)) =
      (applicable cat candidates args).map (Applicable.substitute σ) := by
  rw [applicable, applicable, List.map_filterMap]
  refine List.filterMap_congr ?_
  rintro ⟨params, index⟩ _
  simp only [promoteAll?_substitute, Option.map_map]
  rfl

theorem winners_substitute (args : List Expr) (found : List Applicable) :
    winners cat (args.map (substitute σ)) (found.map (Applicable.substitute σ)) =
      (winners cat args found).map (Applicable.substitute σ) := by
  rw [winners, winners, List.filter_map]
  refine congrArg _ (List.filter_congr fun m _ => ?_)
  simp only [Function.comp_apply, List.all_map, isBetter_substitute, Applicable.substitute]
  rfl

/-- The same overload is chosen, for the operands after the substitution. -/
theorem resolve_substitute (candidates : List (List Ty)) (args : List Expr) :
    resolve cat candidates (args.map (substitute σ)) = (resolve cat candidates args).substitute σ := by
  rw [resolve, resolve, applicable_substitute, winners_substitute]
  rcases winners cat args (applicable cat candidates args) with _ | ⟨one, _ | ⟨two, more⟩⟩
  · simp only [List.map_nil, List.isEmpty_map, List.length_map]
    split <;> rfl
  · rfl
  · simp [Resolution.substitute]

variable {α : Type} {params : α → List Ty}

theorem choose_substitute (members : List α) (args : List Expr) :
    choose cat params members (args.map (substitute σ)) = (choose cat params members args).substitute σ := by
  rw [choose, choose, resolve_substitute]
  cases resolve cat (members.map params) args with
  | noMatch => rfl
  | ambiguous => rfl
  | found choice =>
      simp only [Resolution.substitute, Applicable.substitute]
      cases members[choice.index]? <;> rfl

/-- Members of base classes are looked at in the same cases, because the same levels have no match. -/
theorem chooseLevel_substitute (args : List Expr) (levels : List (List α)) :
    chooseLevel cat params (args.map (substitute σ)) levels = (chooseLevel cat params args levels).substitute σ := by
  induction levels with
  | nil => rfl
  | cons level levels ih =>
      rw [chooseLevel, chooseLevel, choose_substitute]
      cases choose cat params level args with
      | none => exact ih
      | found => rfl
      | ambiguous => rfl

end Overload

/-! ### Rules -/

namespace Typing

variable {left right : Expr}

/-- A pair of operands that fits one of some signatures. -/
theorem operands_substitute (signatures : List (List Ty)) (symbol : String) (left right : Expr) :
    operands cat signatures symbol (left.substitute σ) (right.substitute σ) =
      (operands cat signatures symbol left right).map (Prod.map (substitute σ) (substitute σ)) := by
  have hresolve : Overload.resolve cat signatures [left.substitute σ, right.substitute σ] = _ :=
    Overload.resolve_substitute (σ := σ) signatures [left, right]
  rw [operands, operands, hresolve, ty_substitute, ty_substitute]
  cases Overload.resolve cat signatures [left, right] with
  | noMatch => rfl
  | ambiguous => rfl
  | found choice =>
      obtain ⟨index, params, args⟩ := choice
      rcases args with _ | ⟨l, _ | ⟨r, _ | ⟨more, rest⟩⟩⟩ <;> rfl

theorem logical_substitute (op : BinaryOp) (symbol : String) (left right : Expr) :
    logical cat op symbol (left.substitute σ) (right.substitute σ) =
      (logical cat op symbol left right).map (substitute σ) := by
  rw [logical, logical, operands_substitute]
  cases operands cat Signatures.logical symbol left right with
  | error => rfl
  | ok pair =>
      simp only [Except.map, bind, Except.bind, Prod.map, ty_substitute]
      rfl

theorem arithmetic_substitute (signatures : List (List Ty)) (op : BinaryOp) (symbol : String)
    (left right : Expr) :
    arithmetic cat signatures op symbol (left.substitute σ) (right.substitute σ) =
      (arithmetic cat signatures op symbol left right).map (substitute σ) := by
  rw [arithmetic, arithmetic, operands_substitute]
  cases operands cat signatures symbol left right with
  | error => rfl
  | ok pair =>
      simp only [Except.map, bind, Except.bind, Prod.map, ty_substitute]
      rfl

theorem sum_substitute (symbol : String) (left right : Expr) :
    sum cat symbol (left.substitute σ) (right.substitute σ) = (sum cat symbol left right).map (substitute σ) := by
  rw [sum, sum, ty_substitute, ty_substitute]
  split
  · rfl
  · exact arithmetic_substitute _ _ _ _ _

/-- A literal is narrowed by its text, and to the type of the other operand. -/
theorem narrowed_substitute (equality : Bool) (literal other : Expr) :
    narrowed equality (literal.substitute σ) (other.substitute σ) =
      (narrowed equality literal other).map (substitute σ) := by
  simp only [narrowed, ty_substitute, reread?_substitute, literalText?_substitute]
  split
  · rfl
  · split
    · rfl
    · split <;> rfl

theorem narrowLiteral_substitute (equality : Bool) (left right : Expr) :
    narrowLiteral equality (left.substitute σ) (right.substitute σ) =
      (narrowLiteral equality left right).map (Prod.map (substitute σ) (substitute σ)) := by
  simp only [narrowLiteral, isIntegerLiteral, ty_substitute, literalText?_substitute, narrowed_substitute]
  split
  · cases narrowed equality left right <;> rfl
  · cases narrowed equality right left <;> rfl
  · rfl

/-- References, enumeration values and other operands are told apart by types, so the same rule pairs the operands. -/
theorem comparable_substitute (op : BinaryOp) (symbol : String) (left right : Expr) :
    comparable cat op symbol (left.substitute σ) (right.substitute σ) =
      (comparable cat op symbol left right).map (Prod.map (substitute σ) (substitute σ)) := by
  simp only [comparable, ty_substitute, narrowLiteral_substitute]
  split
  · simp only [referencePair, ty_substitute]
    split
    · rfl
    · split
      · rfl
      · split <;> rfl
  · split
    · simp only [enumPair, ty_substitute, Catalog.promote?_substitute]
      split
      · rfl
      · cases cat.promote? right left.ty true with
        | some r => rfl
        | none => cases cat.promote? left right.ty true <;> rfl
    · cases narrowLiteral op.isEquality left right with
      | error => rfl
      | ok pair => exact operands_substitute _ _ _ _

theorem comparison_substitute (op : BinaryOp) (symbol : String) (left right : Expr) :
    comparison cat op symbol (left.substitute σ) (right.substitute σ) =
      (comparison cat op symbol left right).map (substitute σ) := by
  rw [comparison, comparison, comparable_substitute]
  cases comparable cat op symbol left right with
  | error => rfl
  | ok pair =>
      simp only [Except.map, bind, Except.bind, Prod.map, ty_substitute]
      split <;> rfl

theorem unary_substitute (op : UnaryOp) (symbol : String) (operand : Expr) :
    unary cat op symbol (operand.substitute σ) = (unary cat op symbol operand).map (substitute σ) := by
  have hresolve : ∀ signatures, Overload.resolve cat signatures [operand.substitute σ] = _ :=
    fun signatures => Overload.resolve_substitute (σ := σ) signatures [operand]
  simp only [unary, hresolve, ty_substitute]
  cases Overload.resolve cat _ [operand] with
  | noMatch => rfl
  | ambiguous => rfl
  | found choice =>
      obtain ⟨index, params, args⟩ := choice
      rcases args with _ | ⟨e, _ | ⟨more, rest⟩⟩
      · rfl
      · simp [Resolution.substitute, Applicable.substitute, Except.map, substitute]
      · rfl

/-- Which branch is converted to the type of the other one depends on their types and on which are null. -/
theorem branches_substitute (yes no : Expr) :
    branches cat (yes.substitute σ) (no.substitute σ) =
      (branches cat yes no).map (Prod.map (substitute σ) (substitute σ)) := by
  simp only [branches, ty_substitute, isNullLiteral_substitute, Catalog.promote?_substitute, branchType]
  split
  · rfl
  · have hif : ∀ (c : Bool) (o : Option Expr), (if c then none else o.map (substitute σ)) =
        (if c then none else o).map (substitute σ) := by
      intro c o
      cases c <;> rfl
    simp only [hif]
    rcases (if no.isNullLiteral then none else cat.promote? yes no.ty true) with _ | y <;>
      rcases (if yes.isNullLiteral then none else cat.promote? no yes.ty true) with _ | n <;> rfl

theorem conditional_substitute (test yes no : Expr) :
    conditional cat (test.substitute σ) (yes.substitute σ) (no.substitute σ) =
      (conditional cat test yes no).map (substitute σ) := by
  simp only [conditional, ty_substitute, branches_substitute]
  split
  · rfl
  · cases branches cat yes no with
    | error => rfl
    | ok pair =>
        simp only [Except.map, bind, Except.bind, Prod.map, ty_substitute]
        rfl

theorem conversion_substitute (e : Expr) (target : Ty) :
    conversion cat (e.substitute σ) target = (conversion cat e target).map (substitute σ) := by
  simp only [conversion, ty_substitute]
  split
  · rfl
  · split
    · rfl
    · split
      · rfl
      · split <;> rfl

/-- Without a constructor that fits, a single argument is converted, after the substitution as before. -/
theorem construction_substitute (ty : Ty) (args : List Expr) :
    construction cat ty (args.map (substitute σ)) = (construction cat ty args).map (substitute σ) := by
  unfold construction
  rw [Overload.choose_substitute]
  cases Overload.choose cat Method.params (cat.constructors ty) args with
  | found ctor promoted =>
      simp only [Overload.MemberChoice.substitute, Except.map, substitute, substituteAll_eq]
  | ambiguous => rfl
  | none =>
      rcases args with _ | ⟨e, _ | ⟨more, rest⟩⟩
      · rfl
      · exact conversion_substitute e ty
      · rfl

/-- A receiver after a substitution: types stay as they are. -/
def Receiver.substitute (σ : Substitution) : Receiver → Receiver
  | type t => type t
  | value e => value (e.substitute σ)

namespace Receiver

@[simp]
theorem ty_substitute (r : Receiver) : (r.substitute σ).ty = r.ty := by
  cases r with
  | type => rfl
  | value e => exact Expr.ty_substitute e

@[simp]
theorem isStatic_substitute (r : Receiver) : (r.substitute σ).isStatic = r.isStatic := by
  cases r <;> rfl

@[simp]
theorem expr?_substitute (r : Receiver) : (r.substitute σ).expr? = r.expr?.map (.substitute σ) := by
  cases r <;> rfl

/-- Whether a name means an operation on items does not depend on the substitution. -/
@[simp]
theorem aggregated?_substitute (name : String) (r : Receiver) :
    (r.substitute σ).aggregated? cat name = r.aggregated? cat name := by
  cases r with
  | type => rfl
  | value e => simp only [substitute, aggregated?, Expr.ty_substitute]

end Receiver

theorem property_substitute (receiver : Receiver) (name : String) :
    property cat (receiver.substitute σ) name = (property cat receiver name).map (substitute σ) := by
  simp only [property, Receiver.ty_substitute, Receiver.isStatic_substitute, Receiver.expr?_substitute]
  cases cat.property? receiver.ty name receiver.isStatic with
  | none => rfl
  | some p => simp only [Except.map, substitute, substituteOption_eq]

/-- The receiver and the arguments are substituted in a call. -/
theorem methodCall_substitute (receiver : Receiver) (name : String) (args : List Expr) :
    methodCall cat (receiver.substitute σ) name (args.map (substitute σ)) =
      (methodCall cat receiver name args).map (substitute σ) := by
  simp only [methodCall, Receiver.ty_substitute, Receiver.isStatic_substitute, Receiver.expr?_substitute,
    Overload.chooseLevel_substitute]
  cases Overload.chooseLevel cat Method.params args _ with
  | found m promoted =>
      simp only [Overload.MemberChoice.substitute, Except.map, substitute, substituteAll_eq, substituteOption_eq]
  | ambiguous => rfl
  | none => rfl

/-- The slot of the items goes with the substitution, and so do the source and the arguments. -/
theorem aggregate_substitute (source : Expr) (slot : Nat) (name : String) (args : List Expr) :
    aggregate cat (source.substitute σ) (σ.slot slot) name (args.map (substitute σ)) =
      (aggregate cat source slot name args).map (substitute σ) := by
  have hlast : ∀ es : List Expr, (es.map (substitute σ)).getLast? = es.getLast?.map (substitute σ) :=
    fun es => List.getLast?_map
  have htype : ∀ o : Option Expr, (o.map (substitute σ)).map (·.ty) = o.map (·.ty) := by
    intro o
    cases o with
    | none => rfl
    | some e => simp
  rw [aggregate, aggregate, Overload.choose_substitute]
  cases Overload.choose cat Prod.snd (Signatures.aggregatesNamed name) args with
  | ambiguous => rfl
  | none => rfl
  | found member promoted =>
      simp only [Overload.MemberChoice.substitute, hlast]
      split
      · simp only [htype, ty_substitute, Except.map, substitute, substituteOption_eq]
      · simp only [htype, ty_substitute, Except.map, substitute, substituteOption_eq]

theorem element_substitute (e : Expr) (args : List Expr) :
    element cat (e.substitute σ) (args.map (substitute σ)) = (element cat e args).map (substitute σ) := by
  rw [element, element, ty_substitute]
  split
  · rcases args with _ | ⟨position, _ | ⟨more, rest⟩⟩
    · rfl
    · simp only [List.map_cons, List.map_nil, Catalog.promote?_substitute]
      cases cat.promote? position .int32 false <;> rfl
    · rfl
  · rw [Overload.chooseLevel_substitute]
    cases Overload.chooseLevel cat Method.params args _ with
    | found m promoted =>
        simp only [Overload.MemberChoice.substitute, Except.map, substitute, substituteAll_eq, substituteOption]
    | ambiguous => rfl
    | none => rfl

theorem invocation_substitute (l : Lambda) (args : List Expr) :
    invocation cat l (args.map (substitute σ)) = (invocation cat l args).map (substitute σ) := by
  rw [invocation, invocation, Overload.resolve_substitute]
  cases Overload.resolve cat [l.paramTypes] args with
  | noMatch => rfl
  | ambiguous => rfl
  | found choice =>
      simp only [Resolution.substitute, Applicable.substitute, Except.map, substitute, substituteAll_eq]

theorem projection_substitute (fields : List (String × Expr)) :
    projection (fields.map (Prod.map id (substitute σ))) = (projection fields).substitute σ := by
  simp [projection, substitute, substituteAll_eq, Function.comp_def]

/-- An expression is converted to the type that is asked for as before the substitution. -/
theorem result_substitute (e : Expr) (ty : Option Ty) :
    result cat (e.substitute σ) ty = (result cat e ty).map (substitute σ) := by
  cases ty with
  | none => rfl
  | some ty =>
      simp only [result, Catalog.promote?_substitute]
      cases cat.promote? e ty true <;> rfl

end Typing

end RowQuery
