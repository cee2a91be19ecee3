import Mathlib.Data.Int.ModEq
import RowQuery.Proofs.IntegerComparison

/-!
Arithmetic on integers. Operands of any integral types, literals among them, are converted to one type of 32 or 64 bits
without a change of their numbers. Sums, differences and products are exact modulo the number of words of that type.
Quotients and remainders are truncated toward zero and exact; they fail for a divisor that is zero, and for the least
word with a sign by -1. If an operand is absent, so is the result.
-/

namespace RowQuery

open Parse Grammar Lexeme

/-! ### Words -/

namespace IntKind

variable {k : IntKind} {x y : Int}

theorem bounds (k : IntKind) :
    k.signed ∧ k.greatest = -k.least - 1 ∧ k.least < 0 ∨ k.signed = false ∧ k.least = 0 := by
  cases k <;> decide

/-- The one quotient that is no word. -/
def Overflows (k : IntKind) (x y : Int) : Prop := k.signed ∧ x = k.least ∧ y = -1

theorem holds_quotient (hx : k.Holds x) (hy : k.Holds y) (hne : y ≠ 0) : k.Holds (x.tdiv y) ↔ ¬k.Overflows x y := by
  obtain ⟨hlow, hhigh⟩ := hx
  constructor
  · rintro ⟨-, hquotient⟩ ⟨hsigned, rfl, rfl⟩
    rw [Int.tdiv_neg, Int.tdiv_one] at hquotient
    rcases k.bounds with ⟨-, hgreatest, -⟩ | ⟨hunsigned, -⟩
    · omega
    · simp [hunsigned] at hsigned
  · intro hno
    have habs : (x.tdiv y).natAbs = x.natAbs / y.natAbs := Int.natAbs_tdiv x y
    rcases k.bounds with ⟨hsigned, hgreatest, hleast⟩ | ⟨-, hleast⟩
    · -- by 1 and by -1 the quotient is as great as the dividend, by others at most half of it
      by_cases hone : y.natAbs = 1
      · rcases Int.natAbs_eq_iff.mp hone with rfl | rfl
        · rw [Nat.cast_one, Int.tdiv_one]
          exact ⟨hlow, hhigh⟩
        · have hx : x ≠ k.least := fun heq => hno ⟨hsigned, heq, rfl⟩
          rw [Nat.cast_one, Int.tdiv_neg, Int.tdiv_one]
          exact ⟨by omega, by omega⟩
      · have hhalf : x.natAbs / y.natAbs ≤ x.natAbs / 2 := Nat.div_le_div_left (by omega) (by decide)
        exact ⟨by omega, by omega⟩
    · have hnonneg : 0 ≤ x.tdiv y := Int.tdiv_nonneg (by omega) (by have := hy.1; omega)
      have hle : x.natAbs / y.natAbs ≤ x.natAbs := Nat.div_le_self _ _
      exact ⟨by omega, by omega⟩

theorem holds_remainder (hx : k.Holds x) (y : Int) : k.Holds (x.tmod y) := by
  obtain ⟨hlow, hhigh⟩ := hx
  have habs : (x.tmod y).natAbs = x.natAbs % y.natAbs := Int.natAbs_tmod x y
  have hle : x.natAbs % y.natAbs ≤ x.natAbs := Nat.mod_le _ _
  have hzero : k.least ≤ 0 := by rcases k.bounds with h | h <;> omega
  rcases Int.le_total 0 x with hsign | hsign
  · have hnonneg : 0 ≤ x.tmod y := Int.tmod_nonneg y hsign
    exact ⟨by omega, by omega⟩
  · have hnonpos : 0 ≤ (-x).tmod y := Int.tmod_nonneg y (by omega)
    rw [Int.neg_tmod] at hnonpos
    have hgreatest : 0 ≤ k.greatest := by rcases k.bounds with h | h <;> omega
    exact ⟨by omega, by omega⟩

end IntKind

namespace Word

variable {k : IntKind} {op : BinaryOp}

theorem wrap_congr {m n : Int} (h : m ≡ n [ZMOD k.modulus]) : wrap k m = wrap k n := by
  have hshifted : (m - k.least) % k.modulus = (n - k.least) % k.modulus := h.sub_right k.least
  simp only [wrap, hshifted]

/-- Exactly one word of a type has a given residue. -/
theorem modEq_iff_eq_wrap {w : Word k} {n : Int} : w.val ≡ n [ZMOD 2 ^ k.bits] ↔ w = wrap k n := by
  constructor
  · intro h
    calc w = wrap k w.val := (wrap_val w).symm
      _ = wrap k n := wrap_congr h
  · rintro rfl
    exact wrap_emod k n

end Word

/-! ### Operators -/

namespace BinaryOp

/-- Sums, differences and products of integers. -/
def onIntegers? : BinaryOp → Option (Int → Int → Int)
  | .add => some (· + ·)
  | .subtract => some (· - ·)
  | .multiply => some (· * ·)
  | _ => none

def isDivision : BinaryOp → Bool
  | .divide | .modulo => true
  | _ => false

end BinaryOp

/-- What an operator makes of two integers in a type of words. -/
structure IntKind.Computes (k : IntKind) (op : BinaryOp) (x y : Int) (outcome : Except EvalError Value) : Prop where
  wraps : ∀ f, op.onIntegers? = some f →
    ∃ n : Word k, outcome = .ok (.int k n) ∧ ∀ m : Word k, m.val ≡ f x y [ZMOD 2 ^ k.bits] ↔ m = n
  zero : op.isDivision → (outcome = .error .divideByZero ↔ y = 0)
  overflow : op.isDivision → ((∃ cause, outcome = .error (.overflow cause)) ↔ k.Overflows x y)
  truncated : op.isDivision → y ≠ 0 → ¬k.Overflows x y → ∃ q r : Word k, q.val = x.tdiv y ∧ r.val = x.tmod y ∧
    q.val * y + r.val = x ∧ outcome = .ok (.int k (if op = .divide then q else r))

namespace Word

variable {k : IntKind} {op : BinaryOp}

theorem arithmetic_wraps {f : Int → Int → Int} (h : op.onIntegers? = some f) (a b : Word k) :
    arithmetic k op a b = .ok (wrap k (f a.val b.val)) := by
  cases op with
  | add | subtract | multiply =>
      cases h
      rfl
  | _ => cases h

theorem arithmetic_zero (hop : op.isDivision) {a b : Word k} (hb : b.val = 0) :
    arithmetic k op a b = .error .divideByZero := by
  cases op with
  | divide | modulo => exact if_pos hb
  | _ => cases hop

theorem arithmetic_overflow (hop : op.isDivision) {a b : Word k} (h : k.Overflows a.val b.val) :
    ∃ cause, arithmetic k op a b = .error (.overflow cause) := by
  have hb : b.val ≠ 0 := by simp [h.2.2]
  have hquotient : ofInt? k (a.val.tdiv b.val) = none :=
    dif_neg fun hholds => (IntKind.holds_quotient a.holds b.holds hb).mp hholds h
  cases op with
  | divide => exact ⟨.division, by simp [arithmetic, hb, hquotient]⟩
  | modulo => exact ⟨.remainder, by simp [arithmetic, hb, hquotient]⟩
  | _ => cases hop

theorem arithmetic_truncated (hop : op.isDivision) {a b : Word k} (hb : b.val ≠ 0)
    (h : ¬k.Overflows a.val b.val) :
    ∃ q r : Word k, q.val = a.val.tdiv b.val ∧ r.val = a.val.tmod b.val ∧
      arithmetic k op a b = .ok (if op = .divide then q else r) := by
  have hholds := (IntKind.holds_quotient a.holds b.holds hb).mpr h
  have hquotient : ofInt? k (a.val.tdiv b.val) = some ⟨a.val.tdiv b.val, hholds⟩ := dif_pos hholds
  refine ⟨⟨a.val.tdiv b.val, hholds⟩, wrap k (a.val.tmod b.val), rfl, ?_, ?_⟩
  · exact val_wrap (IntKind.holds_remainder a.holds b.val)
  · cases op with
    | divide | modulo => simp [arithmetic, hb, hquotient]
    | _ => cases hop

/-- Arithmetic on words is arithmetic on their integers. -/
theorem computes (op : BinaryOp) (a b : Word k) :
    k.Computes op a.val b.val ((arithmetic k op a b).map (.int k)) where
  wraps f hf := by
    rw [arithmetic_wraps hf]
    exact ⟨_, rfl, fun m => modEq_iff_eq_wrap⟩
  zero hop := by
    by_cases hb : b.val = 0
    · rw [arithmetic_zero hop hb]
      exact iff_of_true rfl hb
    · refine iff_of_false ?_ hb
      by_cases h : k.Overflows a.val b.val
      · obtain ⟨cause, hcause⟩ := arithmetic_overflow hop h
        simp [hcause, Except.map]
      · obtain ⟨q, r, -, -, hresult⟩ := arithmetic_truncated hop hb h
        simp [hresult, Except.map]
  overflow hop := by
    by_cases h : k.Overflows a.val b.val
    · obtain ⟨cause, hcause⟩ := arithmetic_overflow hop h
      rw [hcause]
      exact iff_of_true ⟨cause, rfl⟩ h
    · refine iff_of_false ?_ h
      by_cases hb : b.val = 0
      · simp [arithmetic_zero hop hb, Except.map]
      · obtain ⟨q, r, -, -, hresult⟩ := arithmetic_truncated hop hb h
        simp [hresult, Except.map]
  truncated hop hb h := by
    obtain ⟨q, r, hq, hr, hresult⟩ := arithmetic_truncated hop hb h
    refine ⟨q, r, hq, hr, ?_, by rw [hresult]; rfl⟩
    rw [hq, hr, Int.mul_comm]
    exact Int.mul_tdiv_add_tmod a.val b.val

end Word

/-! ### The rules for arithmetic -/

namespace Typing

variable {cat : Catalog} {op : BinaryOp} {left right : Expr} {t : Ty}

theorem onNumbers_overloads (hop : op.isArithmetic) : OnNumbers (Value.arithmeticOverloads op) where
  arithmetic := by
    cases op with
    | add => exact List.subset_append_left _ _
    | subtract => exact List.Subset.trans (List.subset_append_left _ _) (List.subset_append_left _ _)
    | multiply | divide | modulo => exact List.Subset.refl _
    | _ => cases hop
  same := by
    intro t u hmem
    have hdates : ∀ t ∈ Signatures.withNullable [.dateTime, .timeSpan],
        t ≠ .object ∧ ¬(t.isIntegral ∨ t ∈ fractionalTypes) := by decide
    obtain ⟨t', u', r, hon, ⟨rfl, rfl, -⟩ | ⟨rfl, rfl, -⟩⟩ := Value.arithmeticOn_of_mem hmem
    · cases hon with
      | number _ ht =>
          refine ⟨?_, fun _ => rfl⟩
          rintro rfl
          cases ht
      | _ => exact (hdates _ (by decide)).imp_right fun hno h => absurd h hno
    · cases hon with
      | number _ _ =>
          refine ⟨?_, fun _ => rfl⟩
          intro heq
          cases heq
      | _ => exact (hdates _ (by decide)).imp_right fun hno h => absurd h hno

/-- Of the types that an operator takes, the integral ones are those of 32 and 64 bits. -/
theorem exists_kind_of_overload (h : [t, t] ∈ Value.arithmeticOverloads op) (ht : t.isIntegral) :
    ∃ k : IntKind, k.isArithmetic ∧ t.underlying = .int k ∧ arithmeticType op t t = t := by
  obtain ⟨k, hk⟩ := Ty.isIntegral_iff.mp ht
  obtain ⟨t', u', r, hon, ⟨rfl, rfl, hr⟩ | ⟨rfl, hu, hr⟩⟩ := Value.arithmeticOn_of_mem h
  · cases hon with
    | number _ harithmetic =>
        rcases Ty.eq_of_underlying hk with rfl | rfl
        · exact ⟨k, harithmetic, rfl, hr⟩
        · cases harithmetic
    | _ => cases hk
  · cases hu
    cases hon with
    | number _ harithmetic =>
        cases hk
        exact ⟨k, harithmetic, rfl, hr⟩
    | _ => cases hk

/-- The rule for an operator on integers converts them to one type of 32 or 64 bits, which is that of the result. -/
theorem rule_integral {symbol : String} {e : Expr} (hop : op.isArithmetic) (hleft : left.Faithful)
    (hright : right.Faithful) (htyleft : left.ty.isIntegral) (htyright : right.ty.isIntegral)
    (h : op.rule cat symbol left right = .ok e) :
    ∃ (k : IntKind) (t : Ty) (l r : Expr), k.isArithmetic ∧ t.underlying = .int k ∧ e = .binary t op l r ∧
      (cat.Keeps left l ∧ l.ty = t) ∧ cat.Keeps right r ∧ r.ty = t := by
  have hstring : ∀ {e : Expr}, e.ty.isIntegral → e.ty ≠ .string := by
    intro e hty heq
    rw [heq] at hty
    cases hty
  have hrule : op.rule cat symbol left right =
      arithmetic cat (Value.arithmeticOverloads op) op symbol left right := by
    cases op with
    | add => exact if_neg fun heq => heq.elim (hstring htyleft) (hstring htyright)
    | subtract | multiply | divide | modulo => rfl
    | _ => cases hop
  rw [hrule] at h
  obtain ⟨l, r, hoperands, rfl⟩ := arithmetic_ok h
  obtain ⟨t, ht, hmem, ⟨hl, htyl⟩, hr, htyr⟩ :=
    operands_integral (onNumbers_overloads hop) hleft hright htyleft htyright hoperands
  obtain ⟨k, hk, hunder, hresult⟩ := exists_kind_of_overload hmem ht
  exact ⟨k, t, l, r, hk, hunder, by rw [htyl, htyr, hresult], ⟨hl, htyl⟩, hr, htyr⟩

end Typing

/-! ### Evaluation -/

theorem Eval.strict_arithmetic {op : BinaryOp} (hop : op.isArithmetic) (v w : Value) :
    deciding? op = none ∧ strict op v w = Value.arithmetic op v w := by
  cases op with
  | add | subtract | multiply | divide | modulo => exact ⟨rfl, rfl⟩
  | _ => cases hop

namespace Catalog

variable {cat : Catalog} {k : IntKind} {op : BinaryOp} {t : Ty} {v w : Value}

theorem arithmetic_integers (hk : k.isArithmetic) (ht : t.underlying = .int k) (hv : cat.conforms v t)
    (hw : cat.conforms w t) :
    (v.integer? = none ∨ w.integer? = none → Value.arithmetic op v w = .ok .null) ∧
      ∀ x y, v.integer? = some x → w.integer? = some y → k.Computes op x y (Value.arithmetic op v w) := by
  rcases (conforms_integral ht).mp hv with ⟨rfl, -⟩ | ⟨m, rfl⟩
  · refine ⟨fun _ => rfl, fun x y hx _ => ?_⟩
    cases hx
  · rcases (conforms_integral ht).mp hw with ⟨rfl, -⟩ | ⟨n, rfl⟩
    · refine ⟨fun _ => rfl, fun x y _ hy => ?_⟩
      cases hy
    · constructor
      · rintro (hnone | hnone) <;> cases hnone
      · intro x y hx hy
        cases hx
        cases hy
        have hwords : Value.arithmetic op (.int k m) (.int k n) = (Word.arithmetic k op m n).map (.int k) := by
          simp only [Value.arithmetic, hk, dif_pos, if_true]
        rw [hwords]
        exact Word.computes op m n

/-- An operator on expressions that stand for two others computes with the integers of those. -/
theorem exec_arithmetic (hop : op.isArithmetic) (hk : k.isArithmetic) (ht : t.underlying = .int k)
    {left right l r : Expr} (hl : cat.Keeps left l ∧ l.ty = t) (hr : cat.Keeps right r ∧ r.ty = t)
    {s between after : Slots} (hv : Eval.exec (cat.eval left) s = (.ok v, between))
    (hw : Eval.exec (cat.eval right) between = (.ok w, after)) (hleft : cat.conforms v left.ty)
    (hright : cat.conforms w right.ty) :
    ∃ outcome, Eval.exec (cat.eval (.binary t op l r)) s = (outcome, after) ∧
      (v.integer? = none ∨ w.integer? = none → outcome = .ok .null) ∧
      ∀ x y, v.integer? = some x → w.integer? = some y → k.Computes op x y outcome := by
  obtain ⟨v', hv', hconforms, hinteger⟩ := hl.1 s between v hv hleft
  obtain ⟨w', hw', hconforms', hinteger'⟩ := hr.1 between after w hw hright
  obtain ⟨hdeciding, hstrict⟩ := Eval.strict_arithmetic hop v' w'
  rw [hl.2] at hconforms
  rw [hr.2] at hconforms'
  refine ⟨Value.arithmetic op v' w', ?_, ?_⟩
  · rw [exec_binary hdeciding t hv' hw', hstrict]
  · rw [← hinteger, ← hinteger']
    exact arithmetic_integers hk ht hconforms hconforms'

end Catalog

/-! ### Texts -/

/-- The signs of arithmetic. -/
def BinaryOp.arithmeticSigns : List (String × BinaryOp) :=
  [("+", .add), ("-", .subtract), ("*", .multiply), ("/", .divide), ("%", .modulo), ("mod", .modulo)]

namespace Grammar

theorem joins_lexeme {op : BinaryOp} (hop : op.isArithmetic) : Joins op.precedence op.lexeme op.rule where
  level := op.precedence_bounds
  whole := by
    cases op with
    | add | subtract | multiply | divide | modulo => exact ⟨_, _, rfl, by decide, rfl⟩
    | _ => cases hop
  operator t ht := operators_lexeme ht
  closes rest := by
    have hclosing : op.lexeme.kind ∈ closing := by
      cases op with
      | add | subtract | multiply | divide | modulo => decide
      | _ => cases hop
    exact .of_closing hclosing
  stops rest := .of_lexeme (Nat.lt_succ_self _)

/-- The remainder has a name besides its sign. -/
theorem joins_mod : Joins 5 ⟨.identifier, "mod"⟩ BinaryOp.modulo.rule where
  level := by decide
  whole := ⟨_, _, rfl, by decide, rfl⟩
  operator t ht := by
    have hkind : t.kind = .identifier := congrArg Lexeme.kind ht
    have htext : t.text = "mod" := congrArg Lexeme.text ht
    have hword : t.isWord "mod" := by
      rw [Token.isWord, hkind, htext]
      decide
    simp only [operators, multiplicativeOperator?, hkind, hword, if_true]
    rfl
  closes rest := .of_word rfl
  stops rest := .of_member (by simp [first])

end Grammar

theorem BinaryOp.exists_joins {sign : String} {op : BinaryOp} (h : (sign, op) ∈ arithmeticSigns) :
    op.isArithmetic ∧ ∃ l : Lexeme, l.text = sign ∧ Joins op.precedence l op.rule := by
  simp only [arithmeticSigns, List.mem_cons, Prod.mk.injEq, List.not_mem_nil, or_false] at h
  rcases h with ⟨rfl, rfl⟩ | ⟨rfl, rfl⟩ | ⟨rfl, rfl⟩ | ⟨rfl, rfl⟩ | ⟨rfl, rfl⟩ | ⟨rfl, rfl⟩
  · exact ⟨rfl, _, rfl, @joins_lexeme .add rfl⟩
  · exact ⟨rfl, _, rfl, @joins_lexeme .subtract rfl⟩
  · exact ⟨rfl, _, rfl, @joins_lexeme .multiply rfl⟩
  · exact ⟨rfl, _, rfl, @joins_lexeme .divide rfl⟩
  · exact ⟨rfl, _, rfl, @joins_lexeme .modulo rfl⟩
  · exact ⟨rfl, _, rfl, joins_mod⟩

namespace Environment

variable {env : Environment} {decls : List ParamDecl} {a b sign : String} {args : List Argument} {l l₁ l₂ : Lambda}
  {op : BinaryOp}

/-- A text of two operands of integral types with a sign of arithmetic between them, if it compiles, has a type of 32 or
64 bits and computes in it with the integers that the operands have; it has no value where an operand has none. -/
theorem evalLambda_integer_arithmetic (hsign : (sign, op) ∈ BinaryOp.arithmeticSigns)
    (h₁ : env.CompilesPhrase op.precedence decls a args l₁)
    (h₂ : env.CompilesPhrase (op.precedence + 1) decls b args l₂) (hty₁ : l₁.body.ty.isIntegral)
    (hty₂ : l₂.body.ty.isIntegral) (h : env.Compiles decls none (a ++ " " ++ sign ++ " " ++ b) args l) :
    ∃ k ∈ [IntKind.int32, .uint32, .int64, .uint64], (l.body.ty = .int k ∨ l.body.ty = .nullable (.int k)) ∧
      ∀ (row : List Value) (v w : Value), env.catalog.evalLambda l₁ row = .ok v →
        env.catalog.evalLambda l₂ row = .ok w → env.catalog.conforms v l₁.body.ty →
        env.catalog.conforms w l₂.body.ty →
        (v = .null ∨ w = .null → env.catalog.evalLambda l row = .ok .null) ∧
        ∀ x y, v.integer? = some x → w.integer? = some y → k.Computes op x y (env.catalog.evalLambda l row) := by
  obtain ⟨hop, lexeme, rfl, hjoins⟩ := BinaryOp.exists_joins hsign
  obtain ⟨shift, e, hrule, hresult⟩ := h.join_eq_ok hjoins h₁ h₂
  obtain ⟨k, t, left, right, hk, ht, rfl, hleft, hright⟩ := Typing.rule_integral hop h₁.compiles.faithful
    (h₂.compiles.faithful.mapSlots _) hty₁ (by rwa [Expr.ty_substitute]) hrule
  have hbody : l.body = .binary t op left right := (Except.ok.inj hresult).symm
  have hkinds : k ∈ [IntKind.int32, .uint32, .int64, .uint64] := by
    revert hk
    cases k <;> decide
  refine ⟨k, hkinds, ?_, fun row v w hv hw hconforms hconforms' => ?_⟩
  · rw [hbody]
    exact Ty.eq_of_underlying ht
  · obtain ⟨hrow, between, after, hrun₁, hrun₂⟩ := h₁.compiles.exec_both h₂.compiles hv hw l.slots shift
    obtain ⟨outcome, hrun, hnull, hcomputes⟩ := Catalog.exec_arithmetic hop hk ht hleft hright hrun₁ hrun₂ hconforms
      (by rwa [Expr.ty_substitute])
    have hvalue : env.catalog.evalLambda l row = outcome := by
      rw [← h.derives.1] at hrow hrun
      rw [Catalog.evalLambda, if_pos hrow, hbody]
      exact congrArg Prod.fst hrun
    rw [hvalue]
    refine ⟨fun habsent => hnull ?_, hcomputes⟩
    rcases habsent with rfl | rfl
    · exact Or.inl rfl
    · exact Or.inr rfl

/-- The least integer of 32 bits less one is the greatest, and has no remainder by -1. -/
theorem evalLambda_integer_arithmetic_least :
    let env : Environment := ⟨.empty, .empty⟩
    let decls : List ParamDecl := [⟨some "x", .int32⟩, ⟨some "y", .nullable (.int .sbyte)⟩]
    let row : List Value := [.int32 (-2147483648), .int .sbyte (.wrap .sbyte (-1))]
    (∃ l, env.Compiles decls none "x + y" [] l ∧ env.catalog.evalLambda l row = .ok (.int32 2147483647)) ∧
      ∃ l cause, env.Compiles decls none "x mod y" [] l ∧ env.catalog.evalLambda l row = .error (.overflow cause) := by
  intro env decls row
  obtain ⟨l₁, v, h₁, hty₁, hv, hconforms, hx⟩ : ∃ l v, env.CompilesPhrase 6 decls "x" [] l ∧ l.body.ty.isIntegral ∧
      env.catalog.evalLambda l row = .ok v ∧ env.catalog.conforms v l.body.ty ∧ v.integer? = some (-2147483648) :=
    exists_compilesPhrase (by decide +kernel)
  obtain ⟨l₂, w, h₂, hty₂, hw, hconforms', hy⟩ : ∃ l v, env.CompilesPhrase 6 decls "y" [] l ∧ l.body.ty.isIntegral ∧
      env.catalog.evalLambda l row = .ok v ∧ env.catalog.conforms v l.body.ty ∧ v.integer? = some (-1) :=
    exists_compilesPhrase (by decide +kernel)
  have hcompiles : ∀ text ∈ ["x + y", "x mod y"],
      ((env.compile decls none text []).exec .empty).1.toOption.any fun l => l.body.ty = .nullable .int32 := by
    decide +kernel
  have hkind : ∀ {k : IntKind} {t : Ty}, t = .nullable .int32 → t = .int k ∨ t = .nullable (.int k) → k = .int32 := by
    rintro k t rfl (heq | heq) <;> cases heq
    rfl
  constructor
  · obtain ⟨l, hl, hty⟩ := toOption_any.mp (hcompiles "x + y" (by simp))
    have hsign : ("+", BinaryOp.add) ∈ BinaryOp.arithmeticSigns := by decide
    obtain ⟨k, -, hform, hruns⟩ := evalLambda_integer_arithmetic hsign (h₁.descend (by decide)) (h₂.descend (by decide))
      hty₁ hty₂ ⟨.empty, hl⟩
    obtain rfl := hkind (of_decide_eq_true hty) hform
    obtain ⟨n, hvalue, hunique⟩ := ((hruns row v w hv hw hconforms hconforms').2 _ _ hx hy).wraps _ rfl
    obtain rfl : Word.wrap .int32 2147483647 = n := (hunique _).mp (by decide)
    exact ⟨l, ⟨.empty, hl⟩, hvalue⟩
  · obtain ⟨l, hl, hty⟩ := toOption_any.mp (hcompiles "x mod y" (by simp))
    have hsign : ("mod", BinaryOp.modulo) ∈ BinaryOp.arithmeticSigns := by decide
    obtain ⟨k, -, hform, hruns⟩ := evalLambda_integer_arithmetic hsign (h₁.descend (by decide)) h₂ hty₁ hty₂
      ⟨.empty, hl⟩
    obtain rfl := hkind (of_decide_eq_true hty) hform
    have hcomputes := (hruns row v w hv hw hconforms hconforms').2 _ _ hx hy
    obtain ⟨cause, hcause⟩ := (hcomputes.overflow rfl).mpr ⟨rfl, by decide, rfl⟩
    exact ⟨l, cause, ⟨.empty, hl⟩, hcause⟩

end Environment

end RowQuery
