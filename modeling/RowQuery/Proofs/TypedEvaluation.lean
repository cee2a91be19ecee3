import RowQuery.Grammar
import RowQuery.Proofs.Members
import RowQuery.Proofs.Related
import RowQuery.Proofs.TypingRules

/-!
Typing rules are sound for evaluation. An expression is typed if its evaluation, in slots that hold values
of their types, leaves such slots and gives a value of the type it carries or an expected failure. Every
typing rule makes a typed expression of typed ones; this is a fact about what the rule builds, so the
lemmas follow the rules one by one.
-/

namespace RowQuery

/-- The types of the slots in use. -/
abbrev SlotTypes := Nat → Option Ty

namespace SlotTypes

/-- The types with one more slot in use. -/
def bind (Γ : SlotTypes) (n : Nat) (t : Ty) : SlotTypes := fun m => if m = n then some t else Γ m

end SlotTypes

/-- Every slot in use holds a value of its type. -/
def Slots.Conform (cat : Catalog) (Γ : SlotTypes) (s : Slots) : Prop :=
  ∀ n t, Γ n = some t → ∃ v, s[n]? = some v ∧ cat.conforms v t

namespace Slots

theorem Conform.bind {cat : Catalog} {Γ : SlotTypes} {s : Slots} (h : s.Conform cat Γ) {t : Ty} {v : Value}
    (hv : cat.conforms v t) (n : Nat) : (s.bind n v).Conform cat (Γ.bind n t) := by
  intro m u hm
  by_cases hmn : m = n
  · obtain rfl : t = u := by simpa [SlotTypes.bind, hmn] using hm
    exact ⟨v, by rw [hmn, getElem?_bind_self], hv⟩
  · obtain ⟨w, hw, hconforms⟩ := h m u (by simpa [SlotTypes.bind, hmn] using hm)
    exact ⟨w, getElem?_bind_ne hmn hw, hconforms⟩

/-- A slot that was not in use before may be forgotten. -/
theorem Conform.of_bind {cat : Catalog} {Γ : SlotTypes} {s : Slots} {n : Nat} {t : Ty} (hn : Γ n = none)
    (h : s.Conform cat (Γ.bind n t)) : s.Conform cat Γ := by
  intro m u hm
  refine h m u ?_
  have hmn : m ≠ n := by
    rintro rfl
    rw [hn] at hm
    cases hm
  simpa [SlotTypes.bind, hmn] using hm

end Slots

/-- A computation that keeps slots of given types and has a result with a property or an expected
failure. -/
def Sound {α : Type} (cat : Catalog) (Γ : SlotTypes) (p : Eval α) (Q : α → Prop) : Prop :=
  Eval.Related (fun s t => s = t ∧ s.Conform cat Γ) (fun e => e.isExpected) p p fun a b => a = b ∧ Q a

namespace Sound

variable {α β : Type} {cat : Catalog} {Γ : SlotTypes} {p : Eval α} {Q : α → Prop} {S : β → Prop}

theorem pure {a : α} (h : Q a) : Sound cat Γ (Pure.pure a) Q := Eval.Related.pure ⟨rfl, h⟩

theorem bind {f : α → Eval β} (hp : Sound cat Γ p Q) (hf : ∀ a, Q a → Sound cat Γ (f a) S) :
    Sound cat Γ (p >>= f) S :=
  Eval.Related.bind hp fun a b hab => by
    obtain ⟨rfl, ha⟩ := hab
    exact hf a ha

theorem mono {Q' : α → Prop} (hp : Sound cat Γ p Q) (h : ∀ a, Q a → Q' a) : Sound cat Γ p Q' :=
  Eval.Related.mono hp fun a _ hab => ⟨hab.1, h a hab.2⟩

theorem rule {r : Except EvalError α} (h : Yields r Q) : Sound cat Γ (Eval.rule r) Q := by
  refine Eval.Related.rule ?_
  cases r with
  | ok a => exact ⟨rfl, h⟩
  | error e => exact ⟨rfl, h⟩

/-- What a run from slots of the right types yields. -/
theorem yields (h : Sound cat Γ p Q) {s : Slots} (hs : s.Conform cat Γ) : Yields (Eval.exec p s).1 Q := by
  have hmatch := (h s s ⟨rfl, hs⟩).1
  revert hmatch
  cases (Eval.exec p s).1 with
  | ok a => exact fun h => h.2
  | error e => exact fun h => h.2

theorem slot {n : Nat} {t : Ty} (h : Γ n = some t) :
    Sound cat Γ (Eval.slot n) fun v => cat.conforms v t := by
  rintro s _ ⟨rfl, hs⟩
  obtain ⟨v, hv, hconforms⟩ := hs n t h
  rw [Eval.exec_slot hv]
  exact ⟨⟨rfl, hconforms⟩, rfl, hs⟩

/-- A computation in which a new slot is bound to a value of its type. -/
theorem binding {n : Nat} {t : Ty} {v : Value} (hn : Γ n = none) (hv : cat.conforms v t)
    (hp : Sound cat (Γ.bind n t) p Q) : Sound cat Γ (do modify (·.bind n v); p) Q := by
  rintro s _ ⟨rfl, hs⟩
  rw [Eval.exec_bind, Eval.exec_modify]
  obtain ⟨hmatch, hslots⟩ := hp (s.bind n v) _ ⟨rfl, hs.bind hv n⟩
  exact ⟨hmatch, hslots.1, hslots.2.of_bind hn⟩

end Sound

/-- An expression whose value is of a type. -/
def Fits (cat : Catalog) (Γ : SlotTypes) (e : Expr) (t : Ty) : Prop :=
  Sound cat Γ (cat.eval e) fun v => cat.conforms v t

/-- An expression whose value is of the type that it carries. -/
def Typed (cat : Catalog) (Γ : SlotTypes) (e : Expr) : Prop := Fits cat Γ e e.ty

section

variable {cat : Catalog} {Γ : SlotTypes}

theorem typed_literal {t : Ty} {v : Value} {text : String} (h : cat.conforms v t) :
    Typed cat Γ (.literal t v text) := by
  rw [Typed, Fits, Catalog.eval]
  exact Sound.pure h

theorem typed_constant {t : Ty} {v : Value} (h : cat.conforms v t) : Typed cat Γ (.constant t v) := by
  rw [Typed, Fits, Catalog.eval]
  exact Sound.pure h

theorem typed_param {t : Ty} {n : Nat} (h : Γ n = some t) : Typed cat Γ (.param t n) := by
  rw [Typed, Fits, Catalog.eval]
  exact Sound.slot h

/-- A conversion is typed unless it has to make up items. -/
theorem typed_convert {e : Expr} (he : Typed cat Γ e) {t : Ty} {checked : Bool}
    (h : e.ty.underlying = t.underlying ∨ Catalog.isCastTarget t) :
    Typed cat Γ (.convert t checked e) := by
  rw [Typed, Fits, Catalog.eval]
  exact Sound.bind he fun v hv => Sound.rule (Catalog.yields_convert hv h checked)

theorem sound_evalAll {es : List Expr} {ts : List Ty} (h : List.Forall₂ (Fits cat Γ) es ts) :
    Sound cat Γ (cat.evalAll es) fun vs => cat.conformAll vs ts := by
  induction h with
  | nil =>
      rw [Catalog.evalAll]
      exact Sound.pure rfl
  | cons hhead _ ih =>
      rw [Catalog.evalAll]
      refine Sound.bind hhead fun v hv => Sound.bind ih fun vs hvs => Sound.pure ?_
      simp [Catalog.conformAll, hv, hvs]

/-- A receiver that is evaluated is present, or its type is a nullable form. -/
theorem sound_evalReceiver {receiver : Option Expr} (h : ∀ e, receiver = some e → Typed cat Γ e)
    (member : String) :
    Sound cat Γ (cat.evalReceiver member receiver) fun this =>
      cat.Accepts (receiver.map (·.ty)) this := by
  cases receiver with
  | none =>
      rw [Catalog.evalReceiver]
      exact Sound.pure rfl
  | some e =>
      rw [Catalog.evalReceiver]
      refine Sound.bind (h e rfl) fun v hv => ?_
      have hpresent : Yields (Eval.receiver e.ty member v) fun w =>
          cat.conforms w e.ty ∧ (w.isNull → e.ty.isNullable) := by
        unfold Eval.receiver
        split
        · rfl
        · rename_i hnull
          exact ⟨hv, by simpa using hnull⟩
      exact Sound.bind (Sound.rule hpresent) fun w hw => Sound.pure ⟨w, rfl, hw⟩

/-! ### Promotion -/

theorem conforms_number? {text : String} {t target : Ty} {v : Value} (ht : target.underlying = t)
    (h : Literal.number? text t = some v) : cat.conforms v target := by
  unfold Literal.number? at h
  split at h
  · obtain ⟨n, -, rfl⟩ := Option.map_eq_some_iff.mp h
    simp [Catalog.conforms, ht]
  · obtain ⟨x, -, rfl⟩ := Option.map_eq_some_iff.mp h
    simp [Catalog.conforms, ht]
  · obtain ⟨x, -, rfl⟩ := Option.map_eq_some_iff.mp h
    simp [Catalog.conforms, ht]
  · obtain ⟨d, -, rfl⟩ := Option.map_eq_some_iff.mp h
    simp [Catalog.conforms, ht]
  · cases h

theorem conforms_member? {text : String} {t target : Ty} {v : Value} (ht : target.underlying = t)
    (h : Literal.member? text t = some v) : cat.conforms v target := by
  unfold Literal.member? at h
  split at h
  · obtain ⟨n, -, rfl⟩ := Option.map_eq_some_iff.mp h
    simp [Catalog.conforms, ht]
  · cases h

/-- A literal is read again as a value of the type that is wanted. -/
theorem conforms_reread {e : Expr} {target : Ty} {v : Value} (h : Literal.reread? e target = some v) :
    cat.conforms v target := by
  unfold Literal.reread? at h
  split at h
  · cases h
  · simp only at h
    split at h
    · exact conforms_number? rfl h
    · exact conforms_number? rfl h
    · exact conforms_number? rfl h
    · exact conforms_number? rfl h
    · split at h
      · exact conforms_number? rfl h
      · cases h
    · exact conforms_member? rfl h
    · cases h
  · cases h

/-- Types that are compatible without being the same never ask for items to be made up. -/
theorem castable_of_isCompatible {s t : Ty} (hne : s ≠ t) (h : cat.isCompatible s t) :
    s.underlying = t.underlying ∨ Catalog.isCastTarget t := by
  rw [Catalog.isCompatible, if_neg hne] at h
  split at h
  · unfold Catalog.isAssignable at h
    split at h
    · exact Or.inr rfl
    · exact Or.inr rfl
    · exact absurd (beq_iff_eq.mp h).symm hne
  · split at h
    · cases h
    · unfold Ty.widens at h
      split at h
      case h_6 => exact Or.inl (beq_iff_eq.mp h)
      all_goals
        rename_i ht
        right
        simp [Catalog.isCastTarget, ht]

/-- A promoted expression is typed, and its value is of the type it was promoted to. -/
theorem Promotes.typed (hcat : Catalog.Layered cat.decls) {e e' : Expr} {t : Ty} {exact : Bool}
    (h : Promotes cat e t exact e') (he : Typed cat Γ e) : Typed cat Γ e' ∧ Fits cat Γ e' t := by
  have hsame : ∀ {e : Expr}, Typed cat Γ e → e.ty = t → Typed cat Γ e ∧ Fits cat Γ e t := by
    rintro e he rfl
    exact ⟨he, he⟩
  cases h with
  | same h => exact hsame he h
  | null _ ht => exact hsame (typed_constant (Catalog.conforms_null.trans ht)) rfl
  | reread h => exact hsame (typed_constant (conforms_reread h)) rfl
  | convert hne h _ => exact hsame (typed_convert he (castable_of_isCompatible hne h)) rfl
  | reference h _ _ =>
      exact ⟨he, he.mono fun v hv => Catalog.conforms_of_isAssignable hcat h hv⟩

theorem PromotesAll.fits (hcat : Catalog.Layered cat.decls) {es es' : List Expr} {ts : List Ty}
    (h : PromotesAll cat es ts es') (hes : ∀ e ∈ es, Typed cat Γ e) :
    List.Forall₂ (Fits cat Γ) es' ts := by
  induction h with
  | nil => exact .nil
  | cons head _ ih =>
      exact .cons (head.typed hcat (hes _ List.mem_cons_self)).2
        (ih fun e he => hes e (List.mem_cons_of_mem _ he))

/-! ### Operators -/

theorem typed_binary_strict {op : BinaryOp} (hop : Eval.deciding? op = none) {l r : Expr} {t : Ty}
    (hl : Typed cat Γ l) (hr : Typed cat Γ r)
    (h : ∀ a b, cat.conforms a l.ty → cat.conforms b r.ty →
      Yields (Eval.strict op a b) fun v => cat.conforms v t) : Typed cat Γ (.binary t op l r) := by
  rw [Typed, Fits, Catalog.eval]
  refine Sound.bind hl fun a ha => ?_
  simp only [hop]
  exact Sound.bind hr fun b hb => Sound.rule (h a b ha hb)

theorem typed_connective {op : BinaryOp} {decisive : Bool} (hop : Eval.deciding? op = some decisive)
    {l r : Expr} {t : Ty} (ht : [t, t] ∈ Signatures.logical) (hl : Typed cat Γ l) (hlty : l.ty = t)
    (hr : Typed cat Γ r) (hrty : r.ty = t) : Typed cat Γ (.binary t op l r) := by
  rw [Typed, Fits, hlty] at hl
  rw [Typed, Fits, hrty] at hr
  rw [Typed, Fits, Catalog.eval]
  refine Sound.bind hl fun a ha => ?_
  simp only [hop]
  split
  · refine Sound.pure ?_
    obtain ⟨-, hmem⟩ := Signatures.mem_binary.mp ht
    obtain ⟨u, hu, rfl | rfl⟩ := Signatures.mem_withNullable.mp hmem
    · obtain rfl := List.mem_singleton.mp hu
      exact Catalog.conforms_boolean.mpr ⟨decisive, rfl⟩
    · obtain rfl := List.mem_singleton.mp hu
      rfl
  · rename_i hopen
    replace hopen : Eval.isBool decisive a = false := by simpa using hopen
    exact Sound.bind hr fun b hb => Sound.pure (Eval.conforms_connective ht ha hb hopen)

theorem typed_logical (hcat : Catalog.Layered cat.decls) {op : BinaryOp}
    (hop : op = .andAlso ∨ op = .orElse) {symbol : String} {l r e : Expr}
    (h : Typing.logical cat op symbol l r = .ok e) (hl : Typed cat Γ l) (hr : Typed cat Γ r) :
    Typed cat Γ e := by
  obtain ⟨l', r', hoperands, rfl⟩ := Typing.logical_ok h
  obtain ⟨s, t, hmem, hl', hr'⟩ := Typing.operands_ok hoperands
  obtain ⟨rfl, hs⟩ := Signatures.mem_binary.mp hmem
  have hvalues : ∀ t ∈ Signatures.withNullable [.boolean], t.isValueType := by decide
  have hvalue := hvalues s hs
  rw [hl'.ty_eq (Or.inl hvalue)]
  obtain ⟨decisive, hdecisive⟩ : ∃ decisive, Eval.deciding? op = some decisive := by
    rcases hop with rfl | rfl
    · exact ⟨false, rfl⟩
    · exact ⟨true, rfl⟩
  exact typed_connective hdecisive hmem (hl'.typed hcat hl).1 (hl'.ty_eq (Or.inl hvalue))
    (hr'.typed hcat hr).1 (hr'.ty_eq (Or.inl hvalue))

theorem typed_arithmetic (hcat : Catalog.Layered cat.decls) {op : BinaryOp} {symbol : String}
    {l r e : Expr} (h : Typing.arithmetic cat (Value.arithmeticOverloads op) op symbol l r = .ok e)
    (hl : Typed cat Γ l) (hr : Typed cat Γ r) : Typed cat Γ e := by
  obtain ⟨l', r', hoperands, rfl⟩ := Typing.arithmetic_ok h
  obtain ⟨s, t, hmem, hl', hr'⟩ := Typing.operands_ok hoperands
  obtain ⟨hs, ht⟩ := Value.isValueType_of_mem_overloads hmem
  have hlty := hl'.ty_eq (Or.inl hs)
  have hrty := hr'.ty_eq (Or.inl ht)
  have hstrict : Eval.deciding? op = none ∧ ∀ a b, Eval.strict op a b = Value.arithmetic op a b := by
    cases op with
    | add | subtract | multiply | divide | modulo => exact ⟨rfl, fun _ _ => rfl⟩
    | _ => simp [Value.arithmeticOverloads] at hmem
  refine typed_binary_strict hstrict.1 (hl'.typed hcat hl).1 (hr'.typed hcat hr).1 fun a b ha hb => ?_
  rw [hlty] at ha
  rw [hrty] at hb
  rw [hstrict.2, hlty, hrty]
  exact Value.yields_arithmetic_overload hmem ha hb

theorem typed_call {m : Method} {receiver : Option Expr} {args : List Expr} {t : Ty} {params : List Ty}
    (hreceiver : ∀ e, receiver = some e → Typed cat Γ e) (hargs : List.Forall₂ (Fits cat Γ) args params)
    (h : ∀ this vs, cat.Accepts (receiver.map (·.ty)) this → cat.conformAll vs params →
      Yields (Eval.call cat m this vs) fun v => cat.conforms v t) :
    Typed cat Γ (.call t m receiver args) := by
  rw [Typed, Fits, Catalog.eval]
  refine Sound.bind (sound_evalReceiver hreceiver m.name) fun this hthis => ?_
  exact Sound.bind (sound_evalAll hargs) fun vs hvs => Sound.rule (h this vs hthis hvs)

theorem typed_concatenation {l r : Expr} (hl : Typed cat Γ l) (hr : Typed cat Γ r) :
    Typed cat Γ (Typing.concatenation l r) := by
  have hargs : List.Forall₂ (Fits cat Γ) [l, r] [l.ty, r.ty] := .cons hl (.cons hr .nil)
  exact typed_call (fun e he => by cases he) hargs fun this vs _ _ => rfl

theorem typed_sum (hcat : Catalog.Layered cat.decls) {symbol : String} {l r e : Expr}
    (h : Typing.sum cat symbol l r = .ok e) (hl : Typed cat Γ l) (hr : Typed cat Γ r) :
    Typed cat Γ e := by
  rcases Typing.sum_ok h with rfl | h
  · exact typed_concatenation hl hr
  · have hadd : Typing.arithmetic cat (Value.arithmeticOverloads .add) .add symbol l r = .ok e := h
    exact typed_arithmetic hcat hadd hl hr

theorem typed_unary (hcat : Catalog.Layered cat.decls) {op : UnaryOp} {symbol : String} {operand e : Expr}
    (h : Typing.unary cat op symbol operand = .ok e) (he : Typed cat Γ operand) : Typed cat Γ e := by
  obtain ⟨t, e', ht, hpromotes, rfl⟩ := Typing.unary_ok h
  cases op with
  | negate =>
      have hvalues : ∀ t, [t] ∈ Signatures.negation → t.isValueType := by
        intro t ht
        exact (show ∀ t ∈ Signatures.withNullable [.int32, .int64, .single, .double, .decimal],
          t.isValueType by decide) t (Signatures.mem_unary.mp ht)
      have hty := hpromotes.ty_eq (Or.inl (hvalues t ht))
      have htyped := (hpromotes.typed hcat he).2
      rw [hty, Typed, Fits, Catalog.eval]
      exact Sound.bind htyped fun v hv => Sound.rule (Value.yields_negate ht hv)
  | not =>
      have hvalues : ∀ t, [t] ∈ Signatures.not → t.isValueType := by
        intro t ht
        exact (show ∀ t ∈ Signatures.withNullable [.boolean], t.isValueType by decide) t
          (Signatures.mem_unary.mp ht)
      have hty := hpromotes.ty_eq (Or.inl (hvalues t ht))
      have htyped := (hpromotes.typed hcat he).2
      rw [hty, Typed, Fits, Catalog.eval]
      exact Sound.bind htyped fun v hv => Sound.rule (Value.yields_invert ht hv)

/-! ### Comparisons -/

theorem typed_compared {op : BinaryOp} (hop : ∃ k, Grammar.comparisonOperator? k = some op) {l r : Expr}
    (hl : Typed cat Γ l) (hr : Typed cat Γ r) : Typed cat Γ (.binary .boolean op l r) := by
  obtain ⟨k, hk⟩ := hop
  have hcompares : Eval.deciding? op = none ∧ (op.isEquality ∨
      op ∈ [.lessThan, .lessThanOrEqual, .greaterThan, .greaterThanOrEqual]) := by
    cases k <;> cases hk <;> decide
  exact typed_binary_strict hcompares.1 hl hr fun a b _ _ =>
    Eval.yields_strict_comparison hcompares.2 a b

theorem typed_narrowed {equality : Bool} {literal other e : Expr}
    (h : Typing.narrowed equality literal other = .ok e) (hliteral : Typed cat Γ literal) :
    Typed cat Γ e := by
  rcases Typing.narrowed_ok h with rfl | ⟨-, v, hread, rfl⟩
  · exact hliteral
  · exact typed_constant (conforms_reread hread)

theorem typed_narrowLiteral {equality : Bool} {l r l' r' : Expr}
    (h : Typing.narrowLiteral equality l r = .ok (l', r')) (hl : Typed cat Γ l) (hr : Typed cat Γ r) :
    Typed cat Γ l' ∧ Typed cat Γ r' := by
  rcases Typing.narrowLiteral_ok h with ⟨rfl, rfl⟩ | ⟨hnarrowed, rfl⟩ | ⟨rfl, hnarrowed⟩
  · exact ⟨hl, hr⟩
  · exact ⟨typed_narrowed hnarrowed hl, hr⟩
  · exact ⟨hl, typed_narrowed hnarrowed hr⟩

theorem Unified.typed (hcat : Catalog.Layered cat.decls) {l r l' r' : Expr} (h : Unified cat l r l' r')
    (hl : Typed cat Γ l) (hr : Typed cat Γ r) : Typed cat Γ l' ∧ Typed cat Γ r' := by
  cases h with
  | same _ => exact ⟨hl, hr⟩
  | left h => exact ⟨(h.typed hcat hl).1, hr⟩
  | right h => exact ⟨hl, (h.typed hcat hr).1⟩

theorem typed_comparable (hcat : Catalog.Layered cat.decls) {op : BinaryOp} {symbol : String}
    {l r l' r' : Expr} (h : Typing.comparable cat op symbol l r = .ok (l', r')) (hl : Typed cat Γ l)
    (hr : Typed cat Γ r) : Typed cat Γ l' ∧ Typed cat Γ r' := by
  rcases Typing.comparable_ok h with hunified | ⟨l₁, r₁, hnarrow, hoperands⟩
  · exact hunified.typed hcat hl hr
  · obtain ⟨hl₁, hr₁⟩ := typed_narrowLiteral hnarrow hl hr
    obtain ⟨s, t, -, hl', hr'⟩ := Typing.operands_ok hoperands
    exact ⟨(hl'.typed hcat hl₁).1, (hr'.typed hcat hr₁).1⟩

/-- Comparisons are truth values; the order of strings is that of a number with zero. -/
theorem typed_comparison (hcat : Catalog.Layered cat.decls) {op : BinaryOp}
    (hop : ∃ k, Grammar.comparisonOperator? k = some op) {symbol : String} {l r e : Expr}
    (h : Typing.comparison cat op symbol l r = .ok e) (hl : Typed cat Γ l) (hr : Typed cat Γ r) :
    Typed cat Γ e := by
  obtain ⟨l', r', hcomparable, heq⟩ := Typing.comparison_ok h
  obtain ⟨hl', hr'⟩ := typed_comparable hcat hcomparable hl hr
  rcases heq with rfl | ⟨-, rfl⟩
  · exact typed_compared hop hl' hr'
  · refine typed_compared hop ?_ (typed_constant rfl)
    have hargs : List.Forall₂ (Fits cat Γ) [l', r'] [l'.ty, r'.ty] := .cons hl' (.cons hr' .nil)
    refine typed_call (fun e he => by cases he) hargs fun this vs _ hvs => ?_
    obtain ⟨a, b, rfl, -⟩ := Catalog.conformAll_two hvs
    exact Operation.yields_compareStrings this a b

/-! ### Conditionals and conversions -/

theorem typed_conditional (hcat : Catalog.Layered cat.decls) {test yes no e : Expr}
    (h : Typing.conditional cat test yes no = .ok e) (htest : Typed cat Γ test) (hyes : Typed cat Γ yes)
    (hno : Typed cat Γ no) : Typed cat Γ e := by
  obtain ⟨hboolean, y, n, hunified, rfl⟩ := Typing.conditional_ok h
  obtain ⟨hy, hn⟩ := hunified.typed hcat hyes hno
  rw [Typed, Fits, ← hunified.ty_eq] at hn
  rw [Typed, Fits, hboolean] at htest
  rw [Typed, Fits, Catalog.eval]
  refine Sound.bind htest fun v hv => ?_
  obtain ⟨b, rfl⟩ := Catalog.conforms_boolean.mp hv
  refine Sound.bind (Q := fun _ => True) (Sound.rule trivial) fun holds _ => ?_
  split
  · exact hy
  · exact hn

theorem typed_conversion {e e' : Expr} {target : Ty} (htarget : Catalog.isCastTarget target)
    (h : Typing.conversion cat e target = .ok e') (he : Typed cat Γ e) : Typed cat Γ e' := by
  rcases Typing.conversion_ok h with rfl | ⟨checked, rfl⟩
  · exact he
  · exact typed_convert he (Or.inr htarget)

theorem typed_construction (hcat : cat.WellBehaved) {ty : Ty} (hty : Catalog.isCastTarget ty)
    {args : List Expr} {e : Expr} (h : Typing.construction cat ty args = .ok e)
    (hargs : ∀ a ∈ args, Typed cat Γ a) : Typed cat Γ e := by
  rcases Typing.construction_ok h with ⟨ctor, hmem, promoted, hpromotes, rfl⟩ | ⟨operand, rfl, hconversion⟩
  · rw [Typed, Fits, Catalog.eval]
    refine Sound.bind (sound_evalAll (hpromotes.fits hcat.layered hargs)) fun vs hvs => ?_
    exact Sound.rule (Operation.yields_construct hcat hmem hvs)
  · exact typed_conversion hty hconversion (hargs operand List.mem_cons_self)

/-! ### Members -/

/-- What a receiver is evaluated to is what a member of it is called on. -/
theorem sound_receiver {receiver : Typing.Receiver}
    (h : ∀ r ∈ receiver.expr?.toList, Typed cat Γ r) (member : String) :
    Sound cat Γ (cat.evalReceiver member receiver.expr?) fun this =>
      cat.Accepts (if receiver.isStatic then none else some receiver.ty) this := by
  cases receiver with
  | type t => exact sound_evalReceiver (fun e he => by cases he) member
  | value r =>
      refine sound_evalReceiver (fun e he => ?_) member
      cases he
      exact h r List.mem_cons_self

theorem typed_property (hcat : cat.WellBehaved) {receiver : Typing.Receiver} {name : String} {e : Expr}
    (h : Typing.property cat receiver name = .ok e)
    (hreceiver : ∀ r ∈ receiver.expr?.toList, Typed cat Γ r) : Typed cat Γ e := by
  obtain ⟨p, hp, rfl⟩ := Typing.property_ok h
  rw [Typed, Fits, Catalog.eval]
  exact Sound.bind (sound_receiver hreceiver p.name) fun this hthis =>
    Sound.rule (Operation.yields_property hcat hp hthis)

theorem typed_methodCall (hcat : cat.WellBehaved) {receiver : Typing.Receiver} {name : String}
    {args : List Expr} {e : Expr} (h : Typing.methodCall cat receiver name args = .ok e)
    (hparts : ∀ r ∈ receiver.expr?.toList ++ args, Typed cat Γ r) : Typed cat Γ e := by
  obtain ⟨level, hchain, m, hm, promoted, hpromotes, rfl⟩ := Typing.methodCall_ok h
  obtain ⟨hm, hnamed⟩ := List.mem_filter.mp hm
  have hstatic : m.isStatic = receiver.isStatic := by
    simp only [Bool.and_eq_true, beq_iff_eq] at hnamed
    exact hnamed.1
  have hreceiver := sound_receiver (fun r hr => hparts r (List.mem_append_left _ hr)) m.name
  have hargs := hpromotes.fits hcat.layered fun a ha => hparts a (List.mem_append_right _ ha)
  rw [Typed, Fits, Catalog.eval]
  refine Sound.bind hreceiver fun this hthis => Sound.bind (sound_evalAll hargs) fun vs hvs => ?_
  rw [← hstatic] at hthis
  exact Sound.rule (Operation.yields_method hcat hchain hm hthis hvs)

theorem yields_element {sequence position : Value} {item : Ty} (hlist : cat.conforms sequence (.list item))
    (hposition : cat.conforms position .int32) :
    Yields (Eval.element cat sequence position) fun v => cat.conforms v item := by
  obtain ⟨n, rfl⟩ := Catalog.conforms_int.mp hposition
  rcases Catalog.conforms_list hlist with rfl | ⟨items, rfl, hitems⟩
  · rfl
  · refine Yields.ok_bind rfl ?_
    refine Yields.orElse rfl fun v hv => ?_
    split at hv
    · exact hitems v (List.mem_of_getElem? hv)
    · cases hv

theorem typed_element (hcat : cat.WellBehaved) {list : Expr} {args : List Expr} {e : Expr}
    (h : Typing.element cat list args = .ok e) (hlist : Typed cat Γ list)
    (hargs : ∀ a ∈ args, Typed cat Γ a) : Typed cat Γ e := by
  rcases Typing.element_ok h with
    ⟨item, position, p, hitem, rfl, hpromotes, rfl⟩ | ⟨level, hchain, m, hm, promoted, hpromotes, rfl⟩
  · have hposition := (hpromotes.typed hcat.layered (hargs position List.mem_cons_self)).2
    rw [Typed, Fits, hitem] at hlist
    rw [Typed, Fits, Catalog.eval]
    exact Sound.bind hlist fun a ha => Sound.bind hposition fun b hb => Sound.rule (yields_element ha hb)
  · refine typed_call (fun e he => ?_) (hpromotes.fits hcat.layered hargs) fun this vs hthis hvs =>
      Operation.yields_indexer hcat hchain hm hthis hvs
    cases he
    exact hlist

/-! ### Calls, shapes and results -/

/-- A compiled expression that gives values of its type for arguments of theirs. -/
def Lambda.Safe (cat : Catalog) (l : Lambda) : Prop :=
  ∀ args, cat.conformAll args l.paramTypes →
    Yields (cat.evalLambda l args) fun v => cat.conforms v l.resultType

theorem typed_invocation (hcat : Catalog.Layered cat.decls) {l : Lambda} (hl : l.Safe cat)
    {args : List Expr} {e : Expr} (h : Typing.invocation cat l args = .ok e)
    (hargs : ∀ a ∈ args, Typed cat Γ a) : Typed cat Γ e := by
  obtain ⟨promoted, hpromotes, rfl⟩ := Typing.invocation_ok h
  rw [Typed, Fits, Catalog.eval]
  refine Sound.bind (sound_evalAll (hpromotes.fits hcat hargs)) fun vs hvs => ?_
  have hlength : vs.length = l.params.length := by
    have := (Catalog.conformAll_iff.mp hvs).length_eq
    simpa [Lambda.paramTypes] using this
  have hyields := hl vs hvs
  rw [Catalog.evalLambda, if_pos hlength] at hyields
  rw [if_pos hlength]
  exact Sound.rule hyields

theorem typed_projection {fields : List (String × Expr)}
    (h : ∀ e ∈ fields.map (·.2), Typed cat Γ e) : Typed cat Γ (Typing.projection fields) := by
  have hfits : List.Forall₂ (Fits cat Γ) (fields.map (·.2)) (fields.map fun f => f.2.ty) := by
    rw [List.forall₂_map_left_iff, List.forall₂_map_right_iff]
    exact List.forall₂_same.mpr fun f hf => h f.2 (List.mem_map_of_mem hf)
  rw [Typed, Fits, Typing.projection, Catalog.eval]
  refine Sound.bind (sound_evalAll hfits) fun vs hvs => Sound.pure ?_
  simp only [Expr.ty, Catalog.conforms, Ty.underlying, Catalog.fields_ofFields, List.map_map, Bool.and_eq_true]
  refine ⟨⟨Catalog.isSubclass_refl _, hvs⟩, ?_⟩
  split <;> rfl

theorem typed_result (hcat : Catalog.Layered cat.decls) {e e' : Expr} {result : Option Ty}
    (h : Typing.result cat e result = .ok e') (he : Typed cat Γ e) : Typed cat Γ e' := by
  rcases Typing.result_ok h with ⟨-, rfl⟩ | ⟨t, -, hpromotes⟩
  · exact he
  · exact (hpromotes.typed hcat he).1

end

end RowQuery
