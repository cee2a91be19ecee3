import RowQuery.Compile
import RowQuery.Proofs.Operations
import RowQuery.Proofs.Resolution
import RowQuery.Proofs.Scanning

/-!
Formulas over numbers and truth values, with their types, the typed expressions that they stand for, and
how they are written: with parentheses only where the precedence of the operators demands them. The
lexemes of a well-typed formula stay apart, so any text that spells them is scanned into them, and the
typing rules accept its operands as they are.
-/

namespace RowQuery

/-- An integer as it is written: digits, after a minus sign or without. -/
structure SignedDigits where
  negative : Bool
  digits : List Char
  nonempty : digits ≠ []
  isDigit : ∀ c ∈ digits, c.isDigit

namespace SignedDigits

def value (n : SignedDigits) : Int :=
  if n.negative then -(Digits.value n.digits : Int) else Digits.value n.digits

/-- The digits and the minus sign, if there is one, without the space between them. -/
def text (n : SignedDigits) : String :=
  if n.negative then "-" ++ String.ofList n.digits else String.ofList n.digits

def lexemes (n : SignedDigits) : List Lexeme :=
  if n.negative then [⟨.minus, "-"⟩, ⟨.integerLiteral, String.ofList n.digits⟩]
  else [⟨.integerLiteral, String.ofList n.digits⟩]

end SignedDigits

/-- A number of 32 bits as it is written. -/
structure Numeral extends SignedDigits where
  fits : IntKind.int32.Holds toSignedDigits.value

def Numeral.word (n : Numeral) : Word .int32 := ⟨n.value, n.fits⟩

/-- A formula. A variable is known by its name, and has a type and a slot. -/
inductive Formula where
  | number (n : Numeral)
  | truth (b : Bool)
  | var (name : String) (ty : Ty) (slot : Nat)
  | unary (op : UnaryOp) (operand : Formula)
  | binary (op : BinaryOp) (left right : Formula)
  | conditional (test yes no : Formula)

/-! ### Types -/

/-- The keywords, and the words that stand for operators. -/
def reservedWords : List String :=
  ["true", "false", "null", "it", "iif", "new", "and", "or", "mod", "not"]

/-- A name that stands for nothing but a symbol: not reserved, in any case, and not the name of a type. -/
structure Environment.PlainName (env : Environment) (name : String) : Prop where
  isName : ∃ c cs, name.toList = c :: cs ∧ Lexeme.startsName c ∧ ∀ d ∈ cs, Lexeme.continuesName d
  notReserved : Text.fold name ∉ reservedWords
  notType : (Ty.predefined? name).or (env.context.lookup? name) = none

namespace BinaryOp

def isLogical (op : BinaryOp) : Bool := op == orElse || op == andAlso

/-- The type of what an operator makes of numbers and truth values. -/
def result (op : BinaryOp) : Ty := if op.isArithmetic then .int32 else .boolean

end BinaryOp

namespace Formula

/-- A formula over parameters has a type. -/
inductive HasType (env : Environment) (params : List Param) : Formula → Ty → Prop
  | number (n : Numeral) : HasType env params (number n) .int32
  | truth (b : Bool) : HasType env params (truth b) .boolean
  | var {name : String} {t : Ty} {slot : Nat} (hmem : ⟨some name, t, slot⟩ ∈ params)
      (hname : env.PlainName name) (ht : t = .int32 ∨ t = .boolean) : HasType env params (var name t slot) t
  | negate {f : Formula} (hf : HasType env params f .int32) : HasType env params (unary .negate f) .int32
  | not {f : Formula} (hf : HasType env params f .boolean) : HasType env params (unary .not f) .boolean
  | arithmetic {op : BinaryOp} {f g : Formula} (hop : op.isArithmetic) (hf : HasType env params f .int32)
      (hg : HasType env params g .int32) : HasType env params (binary op f g) .int32
  | relational {op : BinaryOp} {f g : Formula} (hop : ¬op.isArithmetic ∧ ¬op.isLogical)
      (hf : HasType env params f .int32) (hg : HasType env params g .int32) :
      HasType env params (binary op f g) .boolean
  | equality {op : BinaryOp} {f g : Formula} (hop : op.isEquality) (hf : HasType env params f .boolean)
      (hg : HasType env params g .boolean) : HasType env params (binary op f g) .boolean
  | logical {op : BinaryOp} {f g : Formula} (hop : op.isLogical) (hf : HasType env params f .boolean)
      (hg : HasType env params g .boolean) : HasType env params (binary op f g) .boolean
  | conditional {test yes no : Formula} {t : Ty} (htest : HasType env params test .boolean)
      (hyes : HasType env params yes t) (hno : HasType env params no t) :
      HasType env params (conditional test yes no) t

/-- The typed expression with the structure of a formula. -/
def expr : Formula → Expr
  | number n => .literal .int32 (.int .int32 n.word) n.text
  | truth b => .constant .boolean (.boolean b)
  | var _ ty slot => .param ty slot
  | unary op f => .unary f.expr.ty op f.expr
  | binary op f g => .binary op.result op f.expr g.expr
  | conditional test yes no => .conditional yes.expr.ty test.expr yes.expr no.expr

variable {env : Environment} {params : List Param}

theorem HasType.ty_expr {f : Formula} {t : Ty} (h : HasType env params f t) : f.expr.ty = t := by
  induction h with
  | number | truth | var => rfl
  | negate _ ih | not _ ih => exact ih
  | conditional _ _ _ _ ih _ => exact ih
  | arithmetic hop => rw [expr, Expr.ty, BinaryOp.result, if_pos hop]
  | relational hop => rw [expr, Expr.ty, BinaryOp.result, if_neg hop.1]
  | @equality op _ _ hop | @logical op _ _ hop =>
      have hnot : ¬op.isArithmetic := by
        revert hop
        cases op <;> decide
      rw [expr, Expr.ty, BinaryOp.result, if_neg hnot]

end Formula

/-! ### Typing rules -/

namespace Typing

variable {cat : Catalog} {left right : Expr} {t : Ty}

/-- A literal that is compared with an operand of its own type is left as it is. -/
theorem narrowLiteral_same (equality : Bool) (hleft : left.ty = t) (hright : right.ty = t)
    (ht : t.underlying = t) : narrowLiteral equality left right = .ok (left, right) := by
  have hnarrowed : ∀ {e e' : Expr}, e.ty = t → e'.ty = t → narrowed equality e e' = .ok e := by
    intro e e' he he'
    rw [narrowed, he, he', ht]
    simp
  unfold narrowLiteral
  split
  · rw [hnarrowed hleft hright]
    rfl
  · rw [hnarrowed hright hleft]
    rfl
  · rfl

theorem comparison_exact {op : BinaryOp} (symbol : String) (hleft : left.ty = t) (hright : right.ty = t)
    (ht : t = .int32 ∨ (op.isEquality ∧ t = .boolean)) :
    comparison cat op symbol left right = .ok (.binary .boolean op left right) := by
  have hplain : t.isValueType ∧ t.isEnum = false ∧ t.underlying = t ∧ t ≠ .string := by
    rcases ht with rfl | ⟨-, rfl⟩ <;> decide
  have hsignature : [left.ty, right.ty] ∈
      (if op.isEquality then Signatures.equality else Signatures.relational) := by
    rw [hleft, hright]
    rcases ht with rfl | ⟨hop, rfl⟩
    · split <;> decide
    · rw [if_pos hop]
      decide
  have hdistinct : (if op.isEquality then Signatures.equality else Signatures.relational).Nodup := by
    split <;> decide
  have hcomparable : comparable cat op symbol left right = .ok (left, right) := by
    simp only [comparable, hleft, hright, hplain.1, hplain.2.1, Bool.not_true, Bool.and_false,
      Bool.or_self, Bool.false_eq_true, if_false]
    rw [narrowLiteral_same _ hleft hright hplain.2.2.1]
    exact operands_exact symbol hsignature hdistinct
  simp [comparison, hcomparable, bind, Except.bind, pure, Except.pure, hleft, hplain]

theorem arithmetic_exact {signatures : List (List Ty)} (op : BinaryOp) (symbol : String)
    (hleft : left.ty = .int32) (hright : right.ty = .int32) (hmem : [.int32, .int32] ∈ signatures)
    (hdistinct : signatures.Nodup) :
    arithmetic cat signatures op symbol left right = .ok (.binary .int32 op left right) := by
  have hoperands : operands cat signatures symbol left right = .ok (left, right) :=
    operands_exact symbol (by rwa [hleft, hright]) hdistinct
  have htype : arithmeticType op left.ty right.ty = .int32 := by
    rw [arithmeticType, hleft, hright, if_neg]
    exact fun h => absurd h.2.1 (by decide)
  rw [arithmetic, hoperands, ← htype]
  rfl

theorem unary_exact {op : UnaryOp} (symbol : String) {e : Expr}
    (h : (op = .negate ∧ e.ty = .int32) ∨ (op = .not ∧ e.ty = .boolean)) :
    unary cat op symbol e = .ok (.unary e.ty op e) := by
  have hresolve : ∀ {signatures : List (List Ty)}, [e.ty] ∈ signatures → signatures.Nodup →
      ∃ index, Overload.resolve cat signatures [e] = .found ⟨index, [e.ty], [e]⟩ :=
    fun hmem hdistinct => Overload.resolve_exact hmem hdistinct
  rcases h with ⟨rfl, hty⟩ | ⟨rfl, hty⟩
  · obtain ⟨index, hfound⟩ : ∃ index, Overload.resolve cat Signatures.negation [e] = _ :=
      hresolve (by rw [hty]; decide) (by decide)
    simp only [unary, hfound]
  · obtain ⟨index, hfound⟩ : ∃ index, Overload.resolve cat Signatures.not [e] = _ :=
      hresolve (by rw [hty]; decide) (by decide)
    simp only [unary, hfound]

theorem conditional_exact {test yes no : Expr} (htest : test.ty = .boolean) (h : yes.ty = no.ty) :
    conditional cat test yes no = .ok (.conditional yes.ty test yes no) := by
  simp [conditional, htest, branches, h, bind, Except.bind, pure, Except.pure]

end Typing

/-- The typing rule of an operator. -/
def BinaryOp.rule (op : BinaryOp) (cat : Catalog) (symbol : String) (left right : Expr) :
    Except Fault Expr :=
  match op with
  | .orElse | .andAlso => Typing.logical cat op symbol left right
  | .add => Typing.sum cat symbol left right
  | .subtract => Typing.arithmetic cat Signatures.subtract op symbol left right
  | .multiply | .divide | .modulo => Typing.arithmetic cat Signatures.arithmetic op symbol left right
  | _ => Typing.comparison cat op symbol left right

namespace Formula.HasType

variable {env : Environment} {params : List Param} {f g : Formula} {t : Ty}

/-- The operands of a well-typed operation are left as they are. -/
theorem rule_eq {op : BinaryOp} (h : HasType env params (binary op f g) t) (cat : Catalog)
    (symbol : String) : op.rule cat symbol f.expr g.expr = .ok (binary op f g).expr := by
  cases h with
  | arithmetic hop hf hg =>
      have harithmetic : ∀ {signatures : List (List Ty)}, [.int32, .int32] ∈ signatures →
          signatures.Nodup → Typing.arithmetic cat signatures op symbol f.expr g.expr =
            .ok (.binary .int32 op f.expr g.expr) :=
        Typing.arithmetic_exact op symbol hf.ty_expr hg.ty_expr
      rw [expr, BinaryOp.result, if_pos hop]
      cases op with
      | add =>
          have hstring : ¬(f.expr.ty = .string ∨ g.expr.ty = .string) := by
            rw [hf.ty_expr, hg.ty_expr]
            decide
          rw [BinaryOp.rule, Typing.sum, if_neg hstring]
          exact harithmetic (by decide) (by decide)
      | subtract => exact harithmetic (by decide) (by decide)
      | multiply | divide | modulo => exact harithmetic (by decide) (by decide)
      | _ => cases hop
  | relational hop hf hg =>
      have hcomparison : Typing.comparison cat op symbol f.expr g.expr = _ :=
        Typing.comparison_exact symbol hf.ty_expr hg.ty_expr (Or.inl rfl)
      cases op with
      | add | subtract | multiply | divide | modulo => exact absurd rfl hop.1
      | orElse | andAlso => exact absurd rfl hop.2
      | _ => exact hcomparison
  | equality hop hf hg =>
      have hcomparison : Typing.comparison cat op symbol f.expr g.expr = _ :=
        Typing.comparison_exact symbol hf.ty_expr hg.ty_expr (Or.inr ⟨hop, rfl⟩)
      cases op with
      | equal | notEqual => exact hcomparison
      | _ => cases hop
  | logical hop hf hg =>
      cases op with
      | orElse | andAlso => exact Typing.logical_boolean _ _ symbol hf.ty_expr hg.ty_expr
      | _ => cases hop

theorem unary_eq {op : UnaryOp} (h : HasType env params (unary op f) t) (cat : Catalog) (symbol : String) :
    Typing.unary cat op symbol f.expr = .ok (unary op f).expr := by
  refine Typing.unary_exact symbol ?_
  cases h with
  | negate hf => exact Or.inl ⟨rfl, hf.ty_expr⟩
  | not hf => exact Or.inr ⟨rfl, hf.ty_expr⟩

theorem conditional_eq {test : Formula} (h : HasType env params (.conditional test f g) t) (cat : Catalog) :
    Typing.conditional cat test.expr f.expr g.expr = .ok (Formula.conditional test f g).expr := by
  cases h with
  | conditional htest hf hg =>
      exact Typing.conditional_exact htest.ty_expr (hf.ty_expr.trans hg.ty_expr.symm)

end Formula.HasType

/-! ### Writing -/

def UnaryOp.lexeme : UnaryOp → Lexeme
  | .negate => ⟨.minus, "-"⟩
  | .not => ⟨.exclamation, "!"⟩

namespace BinaryOp

/-- How tightly an operator binds its operands. -/
def precedence : BinaryOp → Nat
  | orElse => 1
  | andAlso => 2
  | equal | notEqual | lessThan | lessThanOrEqual | greaterThan | greaterThanOrEqual => 3
  | add | subtract => 4
  | multiply | divide | modulo => 5

theorem precedence_bounds (op : BinaryOp) : 1 ≤ op.precedence ∧ op.precedence ≤ 5 := by
  cases op <;> decide

def lexeme : BinaryOp → Lexeme
  | orElse => ⟨.doubleBar, "||"⟩
  | andAlso => ⟨.doubleAmpersand, "&&"⟩
  | equal => ⟨.doubleEqual, "=="⟩
  | notEqual => ⟨.exclamationEqual, "!="⟩
  | lessThan => ⟨.lessThan, "<"⟩
  | lessThanOrEqual => ⟨.lessThanEqual, "<="⟩
  | greaterThan => ⟨.greaterThan, ">"⟩
  | greaterThanOrEqual => ⟨.greaterThanEqual, ">="⟩
  | add => ⟨.plus, "+"⟩
  | subtract => ⟨.minus, "-"⟩
  | multiply => ⟨.asterisk, "*"⟩
  | divide => ⟨.slash, "/"⟩
  | modulo => ⟨.percent, "%"⟩

end BinaryOp

namespace Lexeme

def openParen : Lexeme := ⟨.openParen, "("⟩
def closeParen : Lexeme := ⟨.closeParen, ")"⟩
def question : Lexeme := ⟨.question, "?"⟩
def colon : Lexeme := ⟨.colon, ":"⟩

/-- Lexemes in parentheses, where these are needed. -/
def wrapped (parens : Bool) (ls : List Lexeme) : List Lexeme :=
  if parens then openParen :: (ls ++ [closeParen]) else ls

end Lexeme

namespace Formula

open Lexeme

/-- How tightly a formula holds together: from a conditional to the operators and to what has none. -/
def precedence : Formula → Nat
  | conditional .. => 0
  | binary op .. => op.precedence
  | unary .. => 6
  | number _ | truth _ | var .. => 7

def isNumber : Formula → Bool
  | number _ => true
  | _ => false

/-- The lexemes of a formula. The left operand of an operator may hold together as loosely as the operator
does, the right one may not; a number under a sign stands in parentheses. -/
def lexemes : Formula → List Lexeme
  | number n => n.lexemes
  | truth b => [⟨.identifier, if b then "true" else "false"⟩]
  | var name .. => [⟨.identifier, name⟩]
  | unary op f => op.lexeme :: wrapped (f.isNumber || f.precedence < 6) f.lexemes
  | binary op f g =>
    wrapped (f.precedence < op.precedence) f.lexemes ++
      op.lexeme :: wrapped (g.precedence < op.precedence + 1) g.lexemes
  | conditional test yes no =>
    wrapped (test.precedence < 1) test.lexemes ++
      question :: (yes.lexemes ++ colon :: no.lexemes)

/-- How many phrases stand inside each other: what is in parentheses, what is under a sign, and the
branches of a conditional. -/
def nesting : Formula → Nat
  | number _ | truth _ | var .. => 0
  | unary _ f => f.nesting + (f.isNumber || f.precedence < 6).toNat + 1
  | binary op f g =>
    max (f.nesting + (decide (f.precedence < op.precedence)).toNat)
      (g.nesting + (decide (g.precedence < op.precedence + 1)).toNat)
  | conditional test yes no =>
    max (test.nesting + (decide (test.precedence < 1)).toNat) (max yes.nesting no.nesting + 1)

end Formula

/-! ### Lexemes that stay apart -/

namespace Lexeme

/-- A lexeme that may stand before an operand: only a sign of equality or order could continue it. -/
def Leads (l : Lexeme) : Prop := l.Whole ∧ ∀ c, continues l.kind c → c = '=' ∨ c = '>'

/-- A lexeme that may stand after an operand: it continues neither a name nor a number. -/
def Follows (l : Lexeme) : Prop :=
  l.Whole ∧ Ends .identifier l.text.toList ∧ Ends .integerLiteral l.text.toList

def Opens (l : Lexeme) : Prop := ∀ c, l.text.toList.head? = some c → c ≠ '=' ∧ c ≠ '>'

def Closes (l : Lexeme) : Prop := l.kind = .identifier ∨ l.kind = .integerLiteral ∨ l.kind = .closeParen

theorem Leads.apart {l m : Lexeme} (hl : l.Leads) (hm : m.Opens) : l.Apart m := by
  intro c hc
  obtain ⟨heq, hgreater⟩ := hm c hc
  by_contra hcontinues
  exact (hl.2 c (by simpa using hcontinues)).elim heq hgreater

theorem Follows.apart {l m : Lexeme} (hm : m.Follows) (hl : l.Closes) : l.Apart m := by
  unfold Apart
  rcases hl with hk | hk | hk
  · rw [hk]
    exact hm.2.1
  · rw [hk]
    exact hm.2.2
  · rw [hk]
    intro c hc
    rfl

theorem openParen_leads : openParen.Leads := ⟨⟨_, _, rfl, by decide, rfl⟩, by simp [openParen, continues]⟩

theorem question_leads : question.Leads := ⟨⟨_, _, rfl, by decide, rfl⟩, by simp [question, continues]⟩

theorem colon_leads : colon.Leads := ⟨⟨_, _, rfl, by decide, rfl⟩, by simp [colon, continues]⟩

theorem Whole.follows {l : Lexeme} (h : l.Whole) {c : Char} (hc : l.text.toList.head? = some c)
    (hends : continues .identifier c = false ∧ continues .integerLiteral c = false) : l.Follows := by
  refine ⟨h, ?_, ?_⟩
  · intro d hd
    rw [hc] at hd
    cases hd
    exact hends.1
  · intro d hd
    rw [hc] at hd
    cases hd
    exact hends.2

theorem closeParen_follows : closeParen.Follows :=
  Whole.follows ⟨_, _, rfl, by decide, rfl⟩ rfl (by decide)

theorem question_follows : question.Follows := question_leads.1.follows rfl (by decide)

theorem colon_follows : colon.Follows := colon_leads.1.follows rfl (by decide)

/-- The lexemes of an operand: they stay apart from each other and from what may stand around them. -/
structure Linked (ls : List Lexeme) : Prop where
  nonempty : ls ≠ []
  whole : ∀ l ∈ ls, l.Whole
  apart : ls.IsChain Apart
  opens : ∀ l ∈ ls.head?, l.Opens
  closes : ∀ l ∈ ls.getLast?, l.Closes

namespace Linked

variable {l : Lexeme} {ls ms : List Lexeme}

theorem single (hwhole : l.Whole) (hopens : l.Opens) (hcloses : l.Closes) : Linked [l] where
  nonempty := List.cons_ne_nil _ _
  whole := List.forall_mem_singleton.mpr hwhole
  apart := List.isChain_singleton l
  opens := by simpa using hopens
  closes := by simpa using hcloses

theorem cons (hl : l.Leads) (hopens : l.Opens) (h : Linked ls) : Linked (l :: ls) where
  nonempty := List.cons_ne_nil _ _
  whole := List.forall_mem_cons.mpr ⟨hl.1, h.whole⟩
  apart := List.isChain_cons.mpr ⟨fun m hm => hl.apart (h.opens m hm), h.apart⟩
  opens := by simpa using hopens
  closes := by
    rw [List.getLast?_cons_of_ne_nil h.nonempty]
    exact h.closes

theorem append (h : Linked ls) (hfollows : l.Follows) (hl : l.Leads) (h' : Linked ms) :
    Linked (ls ++ l :: ms) where
  nonempty := by simp
  whole := List.forall_mem_append.mpr ⟨h.whole, List.forall_mem_cons.mpr ⟨hl.1, h'.whole⟩⟩
  apart := by
    refine List.isChain_append.mpr ⟨h.apart, List.isChain_cons.mpr ⟨?_, h'.apart⟩, ?_⟩
    · exact fun m hm => hl.apart (h'.opens m hm)
    · intro m hm k hk
      cases hk
      exact hfollows.apart (h.closes m hm)
  opens := by
    rw [List.head?_append_of_ne_nil _ h.nonempty]
    exact h.opens
  closes := by
    rw [List.getLast?_append_of_ne_nil _ (List.cons_ne_nil _ _), List.getLast?_cons_of_ne_nil h'.nonempty]
    exact h'.closes

theorem wrapped (h : Linked ls) (parens : Bool) : Linked (wrapped parens ls) := by
  have hopens : openParen.Opens := by simp [Opens, openParen]
  unfold Lexeme.wrapped
  split
  · refine cons openParen_leads hopens ⟨by simp, ?_, ?_, ?_, ?_⟩
    · exact List.forall_mem_append.mpr ⟨h.whole, List.forall_mem_singleton.mpr closeParen_follows.1⟩
    · refine List.isChain_append.mpr ⟨h.apart, List.isChain_singleton _, ?_⟩
      intro m hm k hk
      cases hk
      exact closeParen_follows.apart (h.closes m hm)
    · rw [List.head?_append_of_ne_nil _ h.nonempty]
      exact h.opens
    · simp [Closes, closeParen]
  · exact h

end Linked

theorem Whole.of_name {text : String} {c : Char} {cs : List Char} (htext : text.toList = c :: cs)
    (hc : startsName c) (hcs : ∀ d ∈ cs, continuesName d) : Whole ⟨.identifier, text⟩ := by
  have hblank : Text.isBlank c = false := Bool.eq_false_iff.mpr fun h => by simp [startsName_blank h] at hc
  refine ⟨c, cs, htext, hblank, ?_⟩
  rw [read_of_startsName hc, List.takeWhile_eq_self_iff.mpr hcs]

theorem Whole.of_digits {cs : List Char} (hne : cs ≠ []) (hcs : ∀ c ∈ cs, c.isDigit) :
    Whole ⟨.integerLiteral, String.ofList cs⟩ := by
  obtain ⟨c, ds, rfl⟩ := List.exists_cons_of_ne_nil hne
  obtain ⟨hc, hds⟩ := List.forall_mem_cons.mp hcs
  have hblank : Text.isBlank c = false := by
    by_contra h
    have hdigit : continues .integerLiteral c = false := continues_blank _ (by simpa using h)
    simp [continues, hc] at hdigit
  have hcount : digitCount ds = ds.length := by
    rw [digitCount, List.takeWhile_eq_self_iff.mpr hds]
  have hnumber : number ds = (.ok .integerLiteral, ds.length) := by
    simp [number, hcount, fractionLength, exponentLength, suffixLength]
  refine ⟨c, ds, String.toList_ofList, hblank, ?_⟩
  unfold read
  split
  case h_20 =>
    have hquote : ¬(c = '"' ∨ c = '\'') := by
      rintro (rfl | rfl) <;> exact absurd hc (by decide)
    rw [if_neg hquote, if_neg (by simp [startsName_digit hc]), if_pos hc, hnumber]
  all_goals exact absurd hc (by decide)

end Lexeme

theorem BinaryOp.leads_lexeme (op : BinaryOp) : op.lexeme.Leads := by
  constructor
  · cases op <;> exact ⟨_, _, rfl, by decide, rfl⟩
  · cases op <;> simp [lexeme, Lexeme.continues]

theorem BinaryOp.follows_lexeme (op : BinaryOp) : op.lexeme.Follows := by
  have hends : ∃ c, op.lexeme.text.toList.head? = some c ∧ Lexeme.continues .identifier c = false ∧
      Lexeme.continues .integerLiteral c = false := by
    cases op <;> exact ⟨_, rfl, by decide⟩
  obtain ⟨c, hc, hends⟩ := hends
  exact op.leads_lexeme.1.follows hc hends

theorem UnaryOp.leads_lexeme (op : UnaryOp) : op.lexeme.Leads := by
  constructor
  · cases op <;> exact ⟨_, _, rfl, by decide, rfl⟩
  · cases op <;> simp [lexeme, Lexeme.continues]

theorem UnaryOp.opens_lexeme (op : UnaryOp) : op.lexeme.Opens := by
  intro c hc
  cases op <;>
    · cases hc
      decide

namespace SignedDigits

theorem linked_lexemes (n : SignedDigits) : Lexeme.Linked n.lexemes := by
  have hdigits : Lexeme.Linked [⟨.integerLiteral, String.ofList n.digits⟩] := by
    refine .single (.of_digits n.nonempty n.isDigit) ?_ (Or.inr (Or.inl rfl))
    intro c hc
    rw [String.toList_ofList] at hc
    have hdigit := n.isDigit c (List.mem_of_mem_head? hc)
    constructor
    · rintro rfl
      exact absurd hdigit (by decide)
    · rintro rfl
      exact absurd hdigit (by decide)
  unfold lexemes
  split
  · exact hdigits.cons (UnaryOp.leads_lexeme .negate) (UnaryOp.opens_lexeme .negate)
  · exact hdigits

end SignedDigits

namespace Formula

open Lexeme

variable {env : Environment} {params : List Param} {f : Formula} {t : Ty}

theorem linked_name {name : String} {c : Char} {cs : List Char} (htext : name.toList = c :: cs)
    (hc : startsName c) (hcs : ∀ d ∈ cs, continuesName d) : Linked [⟨.identifier, name⟩] := by
  refine .single (.of_name htext hc hcs) ?_ (Or.inl rfl)
  intro d hd
  simp only [htext, List.head?_cons, Option.some.injEq] at hd
  subst hd
  constructor
  · rintro rfl
    exact absurd hc (by decide)
  · rintro rfl
    exact absurd hc (by decide)

/-- The lexemes of a well-typed formula stay apart. -/
theorem HasType.linked (h : HasType env params f t) : Linked f.lexemes := by
  have hbinary : ∀ {op : BinaryOp} {f g : Formula}, Linked f.lexemes → Linked g.lexemes →
      Linked (binary op f g).lexemes :=
    fun hf hg => (hf.wrapped _).append (BinaryOp.follows_lexeme _) (BinaryOp.leads_lexeme _) (hg.wrapped _)
  induction h with
  | number n => exact n.linked_lexemes
  | truth b => cases b <;> exact linked_name rfl (by decide) (List.all_eq_true.mp (by decide))
  | var _ hname _ =>
      obtain ⟨c, cs, htext, hc, hcs⟩ := hname.isName
      exact linked_name htext hc hcs
  | negate _ ih | not _ ih =>
      exact (ih.wrapped _).cons (UnaryOp.leads_lexeme _) (UnaryOp.opens_lexeme _)
  | arithmetic _ _ _ ihf ihg | relational _ _ _ ihf ihg | equality _ _ _ ihf ihg
  | logical _ _ _ ihf ihg => exact hbinary ihf ihg
  | conditional _ _ _ ihtest ihyes ihno =>
      exact (ihtest.wrapped _).append question_follows question_leads
        (ihyes.append colon_follows colon_leads ihno)

end Formula

end RowQuery
