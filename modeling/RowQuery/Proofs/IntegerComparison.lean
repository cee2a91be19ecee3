import RowQuery.Proofs.IntegerConversion
import RowQuery.Proofs.OperandTexts

/-!
Comparisons of integers are exact. Whatever integral types the operands have, with or without a nullable form,
and whether they are literals or not, a text with a sign of comparison between two operands compares the
integers themselves, if it compiles at all: the rule for comparisons leaves integers integers, and comparing
integers as values is comparing them.
-/

namespace RowQuery

/-! ### Comparing integers -/

/-- What a comparison says of two integers, which may be absent: by order it does not hold of what is absent,
and as an equality it holds of two that are. -/
def BinaryOp.decides (op : BinaryOp) (a b : Option Int) : Bool :=
  match op, a, b with
  | .equal, a, b => a = b
  | .notEqual, a, b => a ≠ b
  | .lessThan, some m, some n => m < n
  | .lessThanOrEqual, some m, some n => m ≤ n
  | .greaterThan, some m, some n => n < m
  | .greaterThanOrEqual, some m, some n => n ≤ m
  | _, _, _ => false

theorem Eval.strict_integers {op : BinaryOp} (hop : op.precedence = 3) {a b : Value}
    (ha : a = .null ∨ ∃ k n, a = .int k n) (hb : b = .null ∨ ∃ k n, b = .int k n) :
    strict op a b = .ok (.boolean (op.decides a.integer? b.integer?)) := by
  rcases ha with rfl | ⟨k, m, rfl⟩
  · rcases hb with rfl | ⟨j, n, rfl⟩ <;> cases op <;> first | rfl | simp [BinaryOp.precedence] at hop
  · rcases hb with rfl | ⟨j, n, rfl⟩
    · cases op <;> first | rfl | simp [BinaryOp.precedence] at hop
    · have hequal : (Value.int k m).equal (.int j n) = (Ord.compare m.val n.val == .eq) := rfl
      have horder : ∀ test, inOrder test (.int k m) (.int j n) =
          .ok (.boolean (test (Ord.compare m.val n.val))) := fun _ => rfl
      have hcompare : Ord.compare m.val n.val =
          if m.val < n.val then .lt else if m.val = n.val then .eq else .gt := rfl
      have hbne : ∀ o o' : Ordering, (o != o') = decide (o ≠ o') := by decide
      rw [hcompare] at hequal horder
      cases op <;> simp only [BinaryOp.precedence, Nat.reduceEqDiff] at hop <;>
        simp only [strict, hequal, horder, BinaryOp.decides, Value.integer?] <;> split_ifs <;> simp [hbne] <;> omega

/-! ### The rule for comparisons -/

theorem Ty.isValueType_of_isIntegral {t : Ty} (h : t.isIntegral) : t.isValueType ∧ t.isEnum = false := by
  obtain ⟨k, hk⟩ := isIntegral_iff.mp h
  rcases eq_of_underlying hk with rfl | rfl <;> exact ⟨rfl, rfl⟩

namespace Typing

variable {left right l r e : Expr} {op : BinaryOp} {symbol : String}

/-- A literal that is narrowed keeps its number. -/
theorem keeps_narrowed (cat : Catalog) {equality : Bool} {literal other : Expr}
    (h : narrowed equality literal other = .ok e) (hliteral : literal.Faithful) (hty : literal.ty.isIntegral) :
    cat.Keeps literal e ∧ e.Faithful ∧ e.ty.isIntegral := by
  rcases narrowed_ok h with rfl | ⟨htarget, value, hread, rfl⟩
  · exact ⟨.refl _, hliteral, hty⟩
  · obtain ⟨j, hj⟩ := Ty.isIntegral_iff.mp htarget
    exact ⟨hliteral.reread hty hj hread, .of_ne (by simp), htarget⟩

theorem keeps_narrowLiteral (cat : Catalog) {equality : Bool} (h : narrowLiteral equality left right = .ok (l, r))
    (hleft : left.Faithful) (hright : right.Faithful) (htyleft : left.ty.isIntegral)
    (htyright : right.ty.isIntegral) :
    (cat.Keeps left l ∧ l.Faithful ∧ l.ty.isIntegral) ∧ cat.Keeps right r ∧ r.Faithful ∧ r.ty.isIntegral := by
  rcases narrowLiteral_ok h with ⟨rfl, rfl⟩ | ⟨hl, rfl⟩ | ⟨rfl, hr⟩
  · exact ⟨⟨.refl _, hleft, htyleft⟩, .refl _, hright, htyright⟩
  · exact ⟨keeps_narrowed cat hl hleft htyleft, .refl _, hright, htyright⟩
  · exact ⟨⟨.refl _, hleft, htyleft⟩, keeps_narrowed cat hr hright htyright⟩

/-- Integers are compared as the overloads say, after the literal among them is narrowed. -/
theorem comparable_integral (cat : Catalog) (op : BinaryOp) (symbol : String) (htyleft : left.ty.isIntegral)
    (htyright : right.ty.isIntegral) :
    comparable cat op symbol left right = narrowLiteral op.isEquality left right >>= fun pair =>
      operands cat (if op.isEquality then Signatures.equality else Signatures.relational) symbol pair.1 pair.2 := by
  obtain ⟨hvalue, hplain⟩ := Ty.isValueType_of_isIntegral htyleft
  obtain ⟨-, hplain'⟩ := Ty.isValueType_of_isIntegral htyright
  simp only [comparable, hvalue, hplain, hplain', Bool.not_true, Bool.and_false, Bool.false_and, Bool.or_false,
    Bool.false_eq_true, if_false]

/-- A comparison of integral operands compares the integers that they have. -/
theorem comparison_integral {cat : Catalog} (h : comparison cat op symbol left right = .ok e)
    (hleft : left.Faithful) (hright : right.Faithful) (htyleft : left.ty.isIntegral)
    (htyright : right.ty.isIntegral) :
    ∃ l r, e = .binary .boolean op l r ∧ (cat.Keeps left l ∧ l.ty.isIntegral) ∧
      cat.Keeps right r ∧ r.ty.isIntegral := by
  obtain ⟨l, r, hcomparable, he⟩ := comparison_ok h
  rw [comparable_integral cat op symbol htyleft htyright] at hcomparable
  obtain ⟨⟨l₀, r₀⟩, hnarrow, hoperands⟩ := bind_eq_ok.mp hcomparable
  obtain ⟨⟨hkeeps, hl₀, htyl₀⟩, hkeeps', hr₀, htyr₀⟩ :=
    keeps_narrowLiteral cat hnarrow hleft hright htyleft htyright
  have hnumbers : OnNumbers (if op.isEquality then Signatures.equality else Signatures.relational) := by
    cases op.isEquality with
    | true => exact .of_binary (by decide) (by decide)
    | false => exact .of_binary (by decide) (by decide)
  obtain ⟨t, ht, -, ⟨hl, htyl⟩, hr, htyr⟩ := operands_integral hnumbers hl₀ hr₀ htyl₀ htyr₀ hoperands
  refine ⟨l, r, ?_, ⟨hkeeps.trans hl, by rwa [htyl]⟩, hkeeps'.trans hr, by rwa [htyr]⟩
  rcases he with he | ⟨hstring, -⟩
  · exact he
  · obtain ⟨k, hk⟩ := Ty.isIntegral_iff.mp ht
    rw [htyl, hk] at hstring
    cases hstring

end Typing

/-! ### Operands and signs as texts -/

open Parse Grammar Lexeme

/-- The signs of comparisons. -/
def BinaryOp.signs : List (String × BinaryOp) :=
  [("=", .equal), ("==", .equal), ("!=", .notEqual), ("<>", .notEqual), ("<", .lessThan),
    ("<=", .lessThanOrEqual), (">", .greaterThan), (">=", .greaterThanOrEqual)]

/-- A sign is a lexeme of its own. -/
theorem BinaryOp.exists_lexeme {sign : String} {op : BinaryOp} (h : (sign, op) ∈ signs) :
    op.precedence = 3 ∧ ∃ l : Lexeme, l.text = sign ∧ l.Whole ∧ comparisonOperator? l.kind = some op := by
  simp only [signs, List.mem_cons, Prod.mk.injEq, List.not_mem_nil, or_false] at h
  rcases h with ⟨rfl, rfl⟩ | ⟨rfl, rfl⟩ | ⟨rfl, rfl⟩ | ⟨rfl, rfl⟩ | ⟨rfl, rfl⟩ | ⟨rfl, rfl⟩ | ⟨rfl, rfl⟩ | ⟨rfl, rfl⟩
  · exact ⟨rfl, ⟨.equal, "="⟩, rfl, ⟨_, _, rfl, by decide, rfl⟩, rfl⟩
  · exact ⟨rfl, ⟨.doubleEqual, "=="⟩, rfl, ⟨_, _, rfl, by decide, rfl⟩, rfl⟩
  · exact ⟨rfl, ⟨.exclamationEqual, "!="⟩, rfl, ⟨_, _, rfl, by decide, rfl⟩, rfl⟩
  · exact ⟨rfl, ⟨.lessGreater, "<>"⟩, rfl, ⟨_, _, rfl, by decide, rfl⟩, rfl⟩
  · exact ⟨rfl, ⟨.lessThan, "<"⟩, rfl, ⟨_, _, rfl, by decide, rfl⟩, rfl⟩
  · exact ⟨rfl, ⟨.lessThanEqual, "<="⟩, rfl, ⟨_, _, rfl, by decide, rfl⟩, rfl⟩
  · exact ⟨rfl, ⟨.greaterThan, ">"⟩, rfl, ⟨_, _, rfl, by decide, rfl⟩, rfl⟩
  · exact ⟨rfl, ⟨.greaterThanEqual, ">="⟩, rfl, ⟨_, _, rfl, by decide, rfl⟩, rfl⟩

theorem Grammar.mem_ends_of_comparison {k : TokenKind} {op : BinaryOp} (h : comparisonOperator? k = some op) :
    k ∈ ends := by
  unfold comparisonOperator? at h
  split at h <;> first | decide | cases h

theorem Grammar.Stops.of_ends {rest : List Lexeme} (h : first rest ∈ ends) : Stops 4 rest where
  member := by
    constructor <;> intro heq <;> rw [heq] at h <;> revert h <;> decide
  operator j hj t ht := operators_of_ends hj (by rwa [kind_of_shows ht])
  question h0 := by omega

theorem Grammar.joins_comparison {l : Lexeme} {op : BinaryOp} (hl : comparisonOperator? l.kind = some op)
    (hwhole : l.Whole) : Joins 3 l (Typing.comparison · op) where
  level := by decide
  whole := hwhole
  operator t ht := by
    rw [operators, show t.kind = t.lexeme.kind from rfl, ht, hl, Option.map_some]
  closes _ := .of_first (mem_ends_of_comparison hl)
  stops _ := .of_ends (mem_ends_of_comparison hl)

/-! ### Operands that compile -/

/-- A whole text that is an operand of a comparison. -/
def Grammar.wholeOperand : Parse Expr := do
  let e ← additive (level (maxDepth - 1))
  require .done .syntaxError
  return e

namespace Environment

def compileOperand (env : Environment) (params : List ParamDecl) (text : String) (args : List Argument) :
    Shaping CompileError Lambda := do
  let bound := bindParams params
  let (body, slots) ← env.reading bound args text wholeOperand
  return ⟨bound, body, slots⟩

/-- A text compiles to an operand of a comparison. -/
def CompilesOperand (env : Environment) (params : List ParamDecl) (text : String) (args : List Argument)
    (l : Lambda) : Prop :=
  ∃ shapes, ((env.compileOperand params text args).exec shapes).1 = .ok l

variable {env : Environment} {decls : List ParamDecl} {result : Option Ty} {text a b : String}
  {args : List Argument} {l l₁ l₂ : Lambda} {op : BinaryOp}

namespace CompilesOperand

/-- The operands of comparisons are the phrases of the next tighter level. -/
theorem phrase (h : env.CompilesOperand decls text args l) : env.CompilesPhrase 4 decls text args l := h

theorem readsText (h : env.CompilesOperand decls text args l) :
    l.params = bindParams decls ∧ ∃ shapes, env.ReadsText (bindParams decls) args text
      (Reads (reader (level (maxDepth - 1)) 4)) shapes l.body l.slots := h.phrase.readsText

theorem compiles (h : env.CompilesOperand decls text args l) : env.Compiles decls none text args l := h.phrase.compiles

end CompilesOperand

theorem Compiles.comparison_eq_ok {sign : Lexeme} (hsign : comparisonOperator? sign.kind = some op)
    (hwhole : sign.Whole) (h₁ : env.CompilesOperand decls a args l₁) (h₂ : env.CompilesOperand decls b args l₂)
    (h : env.Compiles decls result (a ++ " " ++ sign.text ++ " " ++ b) args l) :
    ∃ shift e, Typing.comparison env.catalog op sign.text l₁.body
        (l₂.body.mapSlots (raise decls.length shift)) = .ok e ∧
      Typing.result env.catalog e result = .ok l.body :=
  h.join_eq_ok (joins_comparison hsign hwhole) (h₁.phrase.descend (by decide)) h₂.phrase

end Environment

/-! ### Evaluation -/

/-- An operator that is no connective is applied to the values of both operands. -/
theorem Catalog.exec_binary {cat : Catalog} {op : BinaryOp} (hop : Eval.deciding? op = none) (t : Ty)
    {left right : Expr} {s between after : Slots} {v w : Value}
    (hv : Eval.exec (cat.eval left) s = (.ok v, between)) (hw : Eval.exec (cat.eval right) between = (.ok w, after)) :
    Eval.exec (cat.eval (.binary t op left right)) s = (Eval.strict op v w, after) := by
  rw [eval, Eval.exec_bind, hv]
  simp only [hop]
  rw [Eval.exec_bind, hw]
  show Eval.exec (Eval.rule (Eval.strict op v w)) after = _
  cases Eval.strict op v w <;> rfl

theorem Catalog.exec_strict {cat : Catalog} {op : BinaryOp} (hop : op.precedence = 3) {t : Ty} {left right : Expr}
    {s between after : Slots} {v w x : Value} (hv : Eval.exec (cat.eval left) s = (.ok v, between))
    (hw : Eval.exec (cat.eval right) between = (.ok w, after)) (h : Eval.strict op v w = .ok x) :
    Eval.exec (cat.eval (.binary t op left right)) s = (.ok x, after) := by
  have hdeciding : Eval.deciding? op = none := by cases op <;> first | rfl | simp [BinaryOp.precedence] at hop
  rw [exec_binary hdeciding t hv hw, h]

/-- A comparison of expressions that stand for two others has the truth value for the integers of those. -/
theorem Catalog.exec_comparison {cat : Catalog} {op : BinaryOp} (hop : op.precedence = 3) {left right l r : Expr}
    (hl : cat.Keeps left l ∧ l.ty.isIntegral) (hr : cat.Keeps right r ∧ r.ty.isIntegral)
    {s between after : Slots} {v w : Value} (hv : Eval.exec (cat.eval left) s = (.ok v, between))
    (hw : Eval.exec (cat.eval right) between = (.ok w, after)) (hleft : cat.conforms v left.ty)
    (hright : cat.conforms w right.ty) :
    Eval.exec (cat.eval (.binary .boolean op l r)) s =
      (.ok (.boolean (op.decides v.integer? w.integer?)), after) := by
  have hform : ∀ {e : Expr} {v : Value}, e.ty.isIntegral → cat.conforms v e.ty →
      v = .null ∨ ∃ k n, v = .int k n := by
    intro e v hty hv
    obtain ⟨k, hk⟩ := Ty.isIntegral_iff.mp hty
    exact ((conforms_integral hk).mp hv).imp And.left fun ⟨n, hn⟩ => ⟨k, n, hn⟩
  obtain ⟨v', hv', hconforms, hinteger⟩ := hl.1 s between v hv hleft
  obtain ⟨w', hw', hconforms', hinteger'⟩ := hr.1 between after w hw hright
  have hstrict := Eval.strict_integers hop (hform hl.2 hconforms) (hform hr.2 hconforms')
  rw [hinteger, hinteger'] at hstrict
  exact exec_strict hop hv' hw' hstrict

/-- A truth value stays what it is in a type that is asked for. -/
theorem Typing.exec_result {cat : Catalog} {op : BinaryOp} {l r e : Expr} {result : Option Ty}
    (h : Typing.result cat (.binary .boolean op l r) result = .ok e) {s after : Slots} {b : Bool}
    (hrun : Eval.exec (cat.eval (.binary .boolean op l r)) s = (.ok (.boolean b), after)) :
    Eval.exec (cat.eval e) s = (.ok (.boolean b), after) := by
  rcases Typing.result_ok h with ⟨-, rfl⟩ | ⟨t, -, hpromotes⟩
  · exact hrun
  · cases hpromotes with
    | same _ => exact hrun
    | null hnull _ => cases hnull
    | reread hread => cases hread
    | convert hne hcompatible _ =>
        have hconvert : cat.convert (.boolean b) .boolean t false = .ok (.boolean b) := by
          simp only [Expr.ty] at hne hcompatible
          cases t with
          | nullable u => cases u <;> simp_all [Catalog.isCompatible, Catalog.convert, Ty.isValueType,
              Ty.isNullable, Ty.underlying, Ty.widens, Value.isNull]
          | _ => simp_all [Catalog.isCompatible, Catalog.convert, Catalog.castTo, Catalog.isAssignable,
              Ty.isValueType, Ty.isNullable, Ty.underlying, Ty.widens, Value.isNull]
        rw [Eval.exec_convert t false hrun]
        exact congrArg (·, after) hconvert
    | reference _ _ hexact => cases hexact

/-- A text of two operands of integral types with a sign of comparison between them has, if it compiles, the
truth value of the comparison for the integers that the operands have: for all literals and expressions, for
the types of all widths, signed or not and nullable or not, and with operands that are absent. -/
theorem evalLambda_integer_comparison {env : Environment} {decls : List ParamDecl} {result : Option Ty}
    {a b sign : String} {op : BinaryOp} {args : List Argument} {l l₁ l₂ : Lambda} {row : List Value} {v w : Value}
    (hsign : (sign, op) ∈ BinaryOp.signs) (h₁ : env.CompilesOperand decls a args l₁)
    (h₂ : env.CompilesOperand decls b args l₂) (hty₁ : l₁.body.ty.isIntegral) (hty₂ : l₂.body.ty.isIntegral)
    (h : env.Compiles decls result (a ++ " " ++ sign ++ " " ++ b) args l)
    (hv : env.catalog.evalLambda l₁ row = .ok v) (hw : env.catalog.evalLambda l₂ row = .ok w)
    (hconforms : env.catalog.conforms v l₁.body.ty) (hconforms' : env.catalog.conforms w l₂.body.ty) :
    env.catalog.evalLambda l row = .ok (.boolean (op.decides v.integer? w.integer?)) := by
  obtain ⟨hop, lexeme, rfl, hwhole, hlexeme⟩ := BinaryOp.exists_lexeme hsign
  obtain ⟨shift, e, hcomparison, hresult⟩ := h.comparison_eq_ok hlexeme hwhole h₁ h₂
  obtain ⟨left, right, rfl, hleft, hright⟩ := Typing.comparison_integral hcomparison h₁.compiles.faithful
    (h₂.compiles.faithful.mapSlots _) hty₁ (by rwa [Expr.ty_substitute])
  have hparams := h.derives.1
  have hparams₁ : l₁.params = l.params := h₁.readsText.1.trans hparams.symm
  have hparams₂ : l₂.params = l.params := h₂.readsText.1.trans hparams.symm
  have hrow : row.length = l.params.length := by
    by_contra hne
    rw [Catalog.evalLambda, hparams₁, if_neg hne] at hv
    cases hv
  have hstart : (Slots.ofArguments l.slots l.params row).StartWith row :=
    fun i hi => Slots.getElem?_ofArguments h.disciplined.params hrow l.slots hi
  have hrun₁ := h₁.compiles.disciplined.exec_renamed env.catalog Function.injective_id (fun _ _ => rfl)
    (by rw [hparams₁, hrow]) hstart
  rw [Expr.mapSlots_id, hv] at hrun₁
  have hfix : ∀ n, n < l₂.params.length → raise decls.length shift n = n := by
    intro n hn
    rw [hparams₂, hparams, Environment.length_bindParams] at hn
    exact raise_of_lt hn
  have hrun₂ := h₂.compiles.disciplined.exec_renamed env.catalog (raise_injective _ shift) hfix
    (by rw [hparams₂, hrow]) hrun₁.2
  rw [hw] at hrun₂
  have hrun := Typing.exec_result hresult (Catalog.exec_comparison hop hleft hright (Prod.ext hrun₁.1 rfl)
    (Prod.ext hrun₂.1 rfl) hconforms (by rwa [Expr.ty_substitute]))
  rw [Catalog.evalLambda, if_pos hrow]
  exact congrArg Prod.fst hrun

/-- A phrase whose value in a row passes a check. -/
theorem Environment.exists_compilesPhrase {k : Nat} {env : Environment} {decls : List ParamDecl} {text : String}
    {args : List Argument} {row : List Value} {n : Option Int}
    (h : ((env.compilePhrase k decls text args).exec .empty).1.toOption.any fun l => l.body.ty.isIntegral &&
      (env.catalog.evalLambda l row).toOption.any fun v => env.catalog.conforms v l.body.ty && v.integer? == n) :
    ∃ l v, env.CompilesPhrase k decls text args l ∧ l.body.ty.isIntegral ∧
      env.catalog.evalLambda l row = .ok v ∧ env.catalog.conforms v l.body.ty ∧ v.integer? = n := by
  obtain ⟨l, hrun, hcheck⟩ := toOption_any.mp h
  obtain ⟨hty, hcheck⟩ := (Bool.and_eq_true _ _).mp hcheck
  obtain ⟨v, hv, hcheck⟩ := toOption_any.mp hcheck
  obtain ⟨hconforms, hinteger⟩ := (Bool.and_eq_true _ _).mp hcheck
  exact ⟨l, v, ⟨.empty, hrun⟩, hty, hv, hconforms, beq_iff_eq.mp hinteger⟩

/-- As words of 32 bits, -1 and the greatest unsigned integer are the same, and no signed integer of 8 bits is
-129. -/
theorem evalLambda_integer_comparison_words :
    let env : Environment := ⟨.empty, .empty⟩
    let decls : List ParamDecl := [⟨some "small", .nullable (.int .sbyte)⟩, ⟨some "large", .int .uint32⟩]
    let row : List Value := [.int .sbyte (.wrap .sbyte (-1)), .int .uint32 (.wrap .uint32 4294967295)]
    (∃ l, env.Compiles decls none "small >= large" [] l ∧ env.catalog.evalLambda l row = .ok (.boolean false)) ∧
    ∃ l, env.Compiles decls (some .boolean) "-129 < small" [] l ∧
      env.catalog.evalLambda l row = .ok (.boolean true) := by
  intro env decls row
  obtain ⟨small, v, hsmall, htysmall, hv, hconformsv, hintegerv⟩ : ∃ l v, env.CompilesOperand decls "small" [] l ∧
      l.body.ty.isIntegral ∧ env.catalog.evalLambda l row = .ok v ∧ env.catalog.conforms v l.body.ty ∧
      v.integer? = some (-1) := Environment.exists_compilesPhrase (k := 4) (by decide +kernel)
  obtain ⟨large, w, hlarge, htylarge, hw, hconformsw, hintegerw⟩ : ∃ l v, env.CompilesOperand decls "large" [] l ∧
      l.body.ty.isIntegral ∧ env.catalog.evalLambda l row = .ok v ∧ env.catalog.conforms v l.body.ty ∧
      v.integer? = some 4294967295 := Environment.exists_compilesPhrase (k := 4) (by decide +kernel)
  obtain ⟨literal, u, hliteral, htyliteral, hu, hconformsu, hintegeru⟩ : ∃ l v,
      env.CompilesOperand decls "-129" [] l ∧ l.body.ty.isIntegral ∧ env.catalog.evalLambda l row = .ok v ∧
      env.catalog.conforms v l.body.ty ∧ v.integer? = some (-129) :=
    Environment.exists_compilesPhrase (k := 4) (by decide +kernel)
  obtain ⟨l₁, h₁⟩ : ∃ l, ((env.compile decls none "small >= large" []).exec .empty).1 = .ok l :=
    toOption_isSome.mp (by decide +kernel)
  obtain ⟨l₂, h₂⟩ : ∃ l, ((env.compile decls (some .boolean) "-129 < small" []).exec .empty).1 = .ok l :=
    toOption_isSome.mp (by decide +kernel)
  have hatLeast : (">=", BinaryOp.greaterThanOrEqual) ∈ BinaryOp.signs := by decide
  have hless : ("<", BinaryOp.lessThan) ∈ BinaryOp.signs := by decide
  refine ⟨⟨l₁, ⟨.empty, h₁⟩, ?_⟩, l₂, ⟨.empty, h₂⟩, ?_⟩
  · have hcompares := evalLambda_integer_comparison hatLeast hsmall hlarge htysmall htylarge ⟨.empty, h₁⟩ hv hw
      hconformsv hconformsw
    rw [hcompares, hintegerv, hintegerw]
    rfl
  · have hcompares := evalLambda_integer_comparison hless hliteral hsmall htyliteral htysmall ⟨.empty, h₂⟩ hu hv
      hconformsu hconformsv
    rw [hcompares, hintegeru, hintegerv]
    rfl

end RowQuery
