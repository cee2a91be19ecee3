import RowQuery.Proofs.Reading

/-!
The derivations behind the reading of a text. `Derives` says how expressions come about in a scope: from
single tokens, by a typing rule from expressions derived before, or as an operation on items whose
arguments are derived with the item in a new slot. A derivation also tells which slots are given out
while it is read. Every expression that the grammar reads has a derivation, so a property of all compiled
expressions is an induction over derivations and needs nothing of the reading itself.
-/

namespace RowQuery

open Parse

/-- The types that can be written in a scope: those with names, and their nullable forms. -/
inductive Scope.Writes (scope : Scope) : Ty → Prop
  | named {text : String} {ty : Ty}
      (h : (Ty.predefined? text).or (scope.context.lookup? text) = some ty) : Writes scope ty
  | nullable {text : String} {ty form : Ty}
      (h : (Ty.predefined? text).or (scope.context.lookup? text) = some ty)
      (hform : Typing.nullable ty = .ok form) : Writes scope form

/-- The expressions that a single token stands for. -/
inductive Leaf (scope : Scope) : Expr → Prop
  | quoted {text : String} {e : Expr} (h : Grammar.quotedLiteral? text = some e) : Leaf scope e
  | integer {text : String} {e : Expr} (h : Grammar.integerLiteral? text = some e) : Leaf scope e
  | real {text : String} {e : Expr} (h : Grammar.realLiteral? text = some e) : Leaf scope e
  | truth (b : Bool) : Leaf scope (.constant .boolean (.boolean b))
  | null : Leaf scope .nullLiteral
  | implicit {e : Expr} (h : scope.it = some e) : Leaf scope e
  | symbol {name : String} {e : Expr} (h : scope.symbols.lookup name = some (.expr e)) : Leaf scope e

theorem Word.ofInt?_eq_some {k : IntKind} {n : Int} {w : Word k} (h : ofInt? k n = some w) : w.val = n := by
  unfold ofInt? at h
  split at h
  · cases h
    rfl
  · cases h

namespace Grammar

theorem exists_literal_of_quoted {text : String} {e : Expr} (h : quotedLiteral? text = some e) :
    ∃ t v source, e = .literal t v source := by
  unfold quotedLiteral? at h
  split at h
  · cases h
  · simp only at h
    split at h
    · split at h
      · cases h
        exact ⟨_, _, _, rfl⟩
      · cases h
    · cases h
      exact ⟨_, _, _, rfl⟩

/-- The literal of an integer is of the number that its text is. -/
theorem integerLiteral?_eq_some {text : String} {e : Expr} (h : integerLiteral? text = some e) :
    ∃ (k : IntKind) (w : Word k), e = .literal (.int k) (.int k w) text ∧ Digits.int? text.toList = some w.val := by
  simp only [integerLiteral?, Option.bind_eq_some_iff] at h
  obtain ⟨n, hn, h⟩ := h
  obtain ⟨k, -, h⟩ := List.exists_of_findSome?_eq_some h
  obtain ⟨w, hw, rfl⟩ := Option.map_eq_some_iff.mp h
  rw [← Word.ofInt?_eq_some hw] at hn
  exact ⟨k, w, rfl, hn⟩

theorem exists_literal_of_integer {text : String} {e : Expr} (h : integerLiteral? text = some e) :
    ∃ t v source, e = .literal t v source := by
  obtain ⟨k, w, rfl, -⟩ := integerLiteral?_eq_some h
  exact ⟨_, _, _, rfl⟩

theorem exists_literal_of_real {text : String} {e : Expr} (h : realLiteral? text = some e) :
    ∃ t v source, e = .literal t v source := by
  unfold realLiteral? at h
  split at h <;>
  · obtain ⟨x, -, rfl⟩ := Option.map_eq_some_iff.mp h
    exact ⟨_, _, _, rfl⟩

end Grammar

/-- The typing rules that make an expression of others and bind no variable. -/
inductive Rule (scope : Scope) : List Expr → Expr → Prop
  | logical {op : BinaryOp} {symbol : String} {l r e : Expr} (hop : op = .andAlso ∨ op = .orElse)
      (h : Typing.logical scope.catalog op symbol l r = .ok e) : Rule scope [l, r] e
  | comparison {t : Token} {op : BinaryOp} {l r e : Expr}
      (hop : Grammar.comparisonOperator? t.kind = some op)
      (h : Typing.comparison scope.catalog op t.text l r = .ok e) : Rule scope [l, r] e
  | product {t : Token} {op : BinaryOp} {l r e : Expr}
      (hop : Grammar.multiplicativeOperator? t = some op)
      (h : Typing.arithmetic scope.catalog Signatures.arithmetic op t.text l r = .ok e) :
      Rule scope [l, r] e
  | difference {symbol : String} {l r e : Expr}
      (h : Typing.arithmetic scope.catalog Signatures.subtract .subtract symbol l r = .ok e) :
      Rule scope [l, r] e
  | sum {symbol : String} {l r e : Expr} (h : Typing.sum scope.catalog symbol l r = .ok e) :
      Rule scope [l, r] e
  | concatenation {l r : Expr} : Rule scope [l, r] (Typing.concatenation l r)
  | unary {op : UnaryOp} {symbol : String} {operand e : Expr}
      (h : Typing.unary scope.catalog op symbol operand = .ok e) : Rule scope [operand] e
  | conditional {test yes no e : Expr} (h : Typing.conditional scope.catalog test yes no = .ok e) :
      Rule scope [test, yes, no] e
  | construction {ty : Ty} {args : List Expr} {e : Expr} (hty : scope.Writes ty)
      (h : Typing.construction scope.catalog ty args = .ok e) : Rule scope args e
  | property {receiver : Typing.Receiver} {name : String} {e : Expr}
      (h : Typing.property scope.catalog receiver name = .ok e) : Rule scope receiver.expr?.toList e
  | methodCall {receiver : Typing.Receiver} {name : String} {args : List Expr} {e : Expr}
      (h : Typing.methodCall scope.catalog receiver name args = .ok e) :
      Rule scope (receiver.expr?.toList ++ args) e
  | element {list : Expr} {args : List Expr} {e : Expr}
      (h : Typing.element scope.catalog list args = .ok e) : Rule scope (list :: args) e
  | invocation {name : String} {l : Lambda} {args : List Expr} {e : Expr}
      (hl : scope.symbols.lookup name = some (.lambda l))
      (h : Typing.invocation scope.catalog l args = .ok e) : Rule scope args e
  | projection {fields : List (String × Expr)} :
      Rule scope (fields.map (·.2)) (Typing.projection fields)

/-- How a list of expressions comes about in a scope, with the first slot that is free before and the
first one that is free after. -/
inductive Derives : Scope → Nat → Nat → List Expr → Prop
  | nil {scope : Scope} {n : Nat} : Derives scope n n []
  | cons {scope : Scope} {a b c : Nat} {e : Expr} {es : List Expr} (head : Derives scope a b [e])
      (tail : Derives scope b c es) : Derives scope a c (e :: es)
  | leaf {scope : Scope} {n : Nat} {e : Expr} (h : Leaf scope e) : Derives scope n n [e]
  | rule {scope : Scope} {a b : Nat} {es : List Expr} {e : Expr} (parts : Derives scope a b es)
      (h : Rule scope es e) : Derives scope a b [e]
  /-- The variable of an operation on items gets the slot between its source and its arguments. -/
  | aggregate {scope : Scope} {a b c : Nat} {source e : Expr} {name : String} {item : Ty}
      {args : List Expr} (hsource : Derives scope a b [source])
      (hitem : (Typing.Receiver.value source).aggregated? scope.catalog name = some item)
      (hargs : Derives { scope with it := some (.param item b) } (b + 1) c args)
      (h : Typing.aggregate scope.catalog source b name args = .ok e) : Derives scope a c [e]

namespace Derives

theorem le {scope : Scope} {a b : Nat} {es : List Expr} (h : Derives scope a b es) : a ≤ b := by
  induction h with
  | nil => exact Nat.le_refl _
  | cons _ _ ih₁ ih₂ => exact Nat.le_trans ih₁ ih₂
  | leaf _ => exact Nat.le_refl _
  | rule _ _ ih => exact ih
  | aggregate _ _ _ _ ih₁ ih₂ => omega

theorem append {scope : Scope} {a b c : Nat} {es fs : List Expr} (h : Derives scope a b es)
    (hfs : Derives scope b c fs) : Derives scope a c (es ++ fs) := by
  induction h generalizing c with
  | nil => exact hfs
  | cons head _ _ ih => exact .cons head (ih hfs)
  | leaf h => exact .cons (.leaf h) hfs
  | rule parts h _ => exact .cons (.rule parts h) hfs
  | aggregate hsource hitem hargs h _ _ => exact .cons (.aggregate hsource hitem hargs h) hfs

end Derives

namespace Grammar

/-- A reader of expressions whose results have derivations and that consumes a token. -/
def Derived (p : Parse Expr) : Prop :=
  ∀ {scope : Scope} {s s' : Reading} {e : Expr}, Reads p scope s e s' →
    Derives scope s.slots s'.slots [e] ∧ s'.left < s.left

structure Level.Derived (inner : Level) : Prop where
  expression : Grammar.Derived inner.expression
  operand : Grammar.Derived inner.operand

variable {scope : Scope} {s s' : Reading} {inner : Level}

/-- Items between commas keep what each of them and the comma before it keep. -/
theorem separated_keeps {α : Type} {item : List α → Parse α} {I : List α → Reading → Prop}
    (hleft : ∀ {done s a s'}, Reads (item done) scope s a s' → s'.left < s.left)
    (hadvance : ∀ {done s s'}, I done s → Reads advance scope s () s' → I done s')
    (hitem : ∀ {done s a s'}, I done s → Reads (item done) scope s a s' → I (done ++ [a]) s')
    {as : List α} (hI : I [] s) (h : Reads (separated item) scope s as s') :
    I as s' ∧ s'.left < s.left := by
  obtain ⟨first, m, hfirst, hlater⟩ := (reads_separated hleft).mp h
  refine hlater.keeps (I := fun x t => I x t ∧ t.left < s.left) ?_ ?_ ⟨hitem hI hfirst, hleft hfirst⟩
  · rintro x t y u ⟨hx, hlt⟩ hnext
    rcases reads_nextItem.mp hnext with ⟨_, v, a, hv, ha, hy⟩ | ⟨_, hnone, _⟩
    · cases hy
      have hle := (reads_advance hv).2.2.2.1
      exact ⟨hitem (hadvance hx hv) ha, by have := hleft ha; omega⟩
    · simp at hnone
  · rintro x t u hx hnone
    rcases reads_nextItem.mp hnone with ⟨_, _, _, _, _, hsome⟩ | ⟨_, _, rfl⟩
    · simp at hsome
    · exact hx

/-- Operands joined by operators whose rules make an expression of the two. -/
theorem chain_derived {operand : Parse Expr}
    {operator? : Token → Option (Token → Expr → Expr → Parse Expr)} (hoperand : Derived operand)
    (hcombine : ∀ {scope t combine l r s e s'}, operator? t = some combine →
      Reads (combine t l r) scope s e s' → Rule scope [l, r] e ∧ s' = s) :
    Derived (chain operand operator?) := by
  intro scope s s' e h
  obtain ⟨first, m, hfirst, hlater⟩ :=
    (reads_chain (fun h => (hoperand h).2) fun hop he => (hcombine hop he).2).mp h
  refine hlater.keeps (I := fun x t => Derives scope s.slots t.slots [x] ∧ t.left < s.left) ?_ ?_
    (hoperand hfirst)
  · rintro x t y u ⟨hx, hlt⟩ hnext
    rcases reads_nextOperand.mp hnext with ⟨combine, v, right, w, e, hop, hv, hright, he, hy⟩ | h
    · cases hy
      obtain ⟨hrule, rfl⟩ := hcombine hop he
      obtain ⟨hslots, -, -, hle, -⟩ := reads_advance hv
      obtain ⟨hright, hlt'⟩ := hoperand hright
      rw [hslots] at hright
      exact ⟨.rule (hx.append hright) hrule, by omega⟩
    · simp at h
  · rintro x t u hx hnone
    rcases reads_nextOperand.mp hnone with ⟨_, _, _, _, _, _, _, _, _, hsome⟩ | ⟨_, _, rfl⟩
    · simp at hsome
    · exact hx

/-- Moving past a token that is not the end. -/
theorem expect_reads {k : TokenKind} {fault : Fault} {u : Unit}
    (h : Reads (expect k fault) scope s u s') (hk : k ≠ .done) :
    s'.slots = s.slots ∧ s'.left < s.left := by
  obtain ⟨rfl, hadvance⟩ := reads_expect.mp h
  obtain ⟨hslots, -, -, -, hlt⟩ := reads_advance hadvance
  exact ⟨hslots, hlt hk⟩

theorem identifier_reads {name : String} (h : Reads identifier scope s name s') :
    s.token.kind = .identifier ∧ s = s' := by
  simp only [identifier, reads_bind, reads_require, reads_token] at h
  obtain ⟨_, _, ⟨hk, rfl⟩, _, _, ⟨rfl, rfl⟩, h⟩ := h
  refine ⟨hk, ?_⟩
  split at h <;> exact (reads_pure.mp h).2

theorem fieldName_reads {pos : Nat} {e : Expr} {name : String}
    (h : Reads (fieldName pos e) scope s name s') : s'.slots = s.slots ∧ s'.left ≤ s.left := by
  simp only [fieldName, reads_bind, reads_token] at h
  obtain ⟨_, _, ⟨rfl, rfl⟩, h⟩ := h
  rcases reads_ite.mp h with ⟨_, has⟩ | ⟨_, hown⟩
  · simp only [reads_bind, reads_pure] at has
    obtain ⟨_, m, hm, _, _, hname, _, n, hn, rfl, rfl⟩ := has
    obtain ⟨-, rfl⟩ := identifier_reads hname
    obtain ⟨hslots, -, -, hle, -⟩ := reads_advance hm
    obtain ⟨hslots', -, -, hle', -⟩ := reads_advance hn
    exact ⟨hslots'.trans hslots, Nat.le_trans hle' hle⟩
  · split at hown
    · obtain ⟨-, rfl⟩ := reads_pure.mp hown
      exact ⟨rfl, Nat.le_refl _⟩
    · exact absurd hown reads_throw

theorem typeForm_keeps {pos : Nat} {ty form : Ty} (h : Reads (typeForm pos ty) scope s form s') :
    (form = ty ∨ Typing.nullable ty = .ok form) ∧ s'.slots = s.slots ∧ s'.left ≤ s.left := by
  simp only [typeForm, reads_bind, reads_at?] at h
  obtain ⟨_, _, ⟨rfl, rfl⟩, h⟩ := h
  rcases reads_ite.mp h with ⟨_, hmark⟩ | ⟨_, hplain⟩
  · split at hmark
    · rename_i nullable hnullable
      simp only [reads_bind, reads_pure] at hmark
      obtain ⟨_, m, hadvance, rfl, rfl⟩ := hmark
      obtain ⟨hslots, -, -, hle, -⟩ := reads_advance hadvance
      exact ⟨Or.inr hnullable, hslots, hle⟩
    · exact absurd hmark reads_throw
  · obtain ⟨rfl, rfl⟩ := reads_pure.mp hplain
    exact ⟨Or.inl rfl, rfl, Nat.le_refl _⟩

theorem typeForm_reads {pos : Nat} {ty form : Ty} {text : String}
    (hty : (Ty.predefined? text).or (scope.context.lookup? text) = some ty)
    (h : Reads (typeForm pos ty) scope s form s') :
    scope.Writes form ∧ s'.slots = s.slots ∧ s'.left ≤ s.left := by
  obtain ⟨hform, hkept⟩ := typeForm_keeps h
  refine ⟨?_, hkept⟩
  rcases hform with rfl | hnullable
  · exact .named hty
  · exact .nullable hty hnullable

/-- An expression that takes up the token at hand. -/
theorem leaf_reads {e e' : Expr} (hleaf : Leaf scope e) (hk : s.token.kind ≠ .done)
    (h : Reads (do advance; return e) scope s e' s') :
    Derives scope s.slots s'.slots [e'] ∧ s'.left < s.left := by
  simp only [reads_bind, reads_pure] at h
  obtain ⟨_, m, hadvance, rfl, rfl⟩ := h
  obtain ⟨hslots, -, -, -, hlt⟩ := reads_advance hadvance
  rw [hslots]
  exact ⟨.leaf hleaf, hlt hk⟩

theorem literal_reads {reading : Option Expr} {fault : Fault} {e : Expr}
    (hleaf : ∀ e, reading = some e → Leaf scope e) (hk : s.token.kind ≠ .done)
    (h : Reads (literal reading fault) scope s e s') :
    Derives scope s.slots s'.slots [e] ∧ s'.left < s.left := by
  unfold literal at h
  split at h
  · exact leaf_reads (hleaf _ rfl) hk h
  · exact absurd h reads_fail

theorem implicit_reads {e : Expr} (hk : s.token.kind ≠ .done) (h : Reads implicit scope s e s') :
    Derives scope s.slots s'.slots [e] ∧ s'.left < s.left := by
  simp only [implicit, reads_bind, reads_read] at h
  obtain ⟨_, _, ⟨rfl, rfl⟩, h⟩ := h
  split at h
  · rename_i hit
    exact leaf_reads (.implicit hit) hk h
  · exact absurd h reads_fail

section

variable (hinner : inner.Derived)

include hinner

theorem arguments_reads {args : List Expr} (h : Reads (arguments inner) scope s args s') :
    Derives scope s.slots s'.slots args ∧ s'.left < s.left := by
  refine separated_keeps (I := fun es t => Derives scope s.slots t.slots es)
    (fun h => (hinner.expression h).2) ?_ ?_ .nil h
  · intro done t u hdone hu
    rw [(reads_advance hu).1]
    exact hdone
  · intro done t a u hdone ha
    exact hdone.append (hinner.expression ha).1

theorem argumentList_reads {args : List Expr} (h : Reads (argumentList inner) scope s args s') :
    Derives scope s.slots s'.slots args ∧ s'.left < s.left := by
  simp only [argumentList, reads_bind, reads_at?] at h
  obtain ⟨_, m, hopen, _, _, ⟨rfl, rfl⟩, h⟩ := h
  obtain ⟨hslots, hlt⟩ := expect_reads hopen (by decide)
  rw [← hslots]
  rcases reads_ite.mp h with ⟨_, h⟩ | ⟨_, h⟩
  · simp only [reads_bind, reads_pure] at h
    obtain ⟨_, _, ⟨rfl, rfl⟩, _, _, hclose, rfl, rfl⟩ := h
    obtain ⟨hslots', hlt'⟩ := expect_reads hclose (by decide)
    rw [hslots']
    exact ⟨.nil, by omega⟩
  · simp only [reads_bind, reads_pure] at h
    obtain ⟨_, n, hargs, _, _, hclose, rfl, rfl⟩ := h
    obtain ⟨hargs, hlt'⟩ := arguments_reads hinner hargs
    obtain ⟨hslots'', hlt''⟩ := expect_reads hclose (by decide)
    rw [hslots'']
    exact ⟨hargs, by omega⟩

/-- A member continues the derivation of its receiver. -/
theorem member_reads {receiver : Typing.Receiver} {e : Expr} (h : Reads (member inner receiver) scope s e s') :
    (∀ {a}, Derives scope a s.slots receiver.expr?.toList → Derives scope a s'.slots [e]) ∧
      s'.left < s.left := by
  simp only [member, reads_bind, reads_token, reads_at?] at h
  obtain ⟨_, _, ⟨rfl, rfl⟩, name, m, hname, _, n, hadvance, _, _, ⟨rfl, rfl⟩, h⟩ := h
  obtain ⟨hk, rfl⟩ := identifier_reads hname
  obtain ⟨hslots, -, -, -, hlt⟩ := reads_advance hadvance
  replace hlt := hlt (by simp [hk])
  rw [← hslots]
  rcases reads_ite.mp h with ⟨_, hcall⟩ | ⟨_, hproperty⟩
  · simp only [reads_bind, reads_read] at hcall
    obtain ⟨_, _, ⟨rfl, rfl⟩, hcall⟩ := hcall
    split at hcall
    · rename_i item source hitem hsource
      obtain rfl : receiver = .value source := by
        cases receiver <;> simp_all [Typing.Receiver.expr?]
      simp only [reads_bind, reads_newSlot, reads_withReader, reads_typed] at hcall
      obtain ⟨_, _, ⟨rfl, rfl⟩, args, o, hargs, htyped, rfl⟩ := hcall
      obtain ⟨hargs, hlt'⟩ := argumentList_reads hinner hargs
      exact ⟨fun hsource => .aggregate hsource hitem hargs htyped, Nat.lt_trans hlt' hlt⟩
    · simp only [reads_bind, reads_typed] at hcall
      obtain ⟨args, o, hargs, htyped, rfl⟩ := hcall
      obtain ⟨hargs, hlt'⟩ := argumentList_reads hinner hargs
      exact ⟨fun hreceiver => .rule (hreceiver.append hargs) (.methodCall htyped),
        Nat.lt_trans hlt' hlt⟩
  · obtain ⟨htyped, rfl⟩ := reads_typed.mp hproperty
    exact ⟨fun hreceiver => .rule hreceiver (.property htyped), hlt⟩

theorem element_reads {list e : Expr} (h : Reads (element inner list) scope s e s') :
    (∀ {a}, Derives scope a s.slots [list] → Derives scope a s'.slots [e]) ∧ s'.left < s.left := by
  simp only [element, reads_bind, reads_token, reads_typed] at h
  obtain ⟨_, _, ⟨rfl, rfl⟩, _, m, hadvance, args, n, hargs, _, o, hclose, htyped, rfl⟩ := h
  obtain ⟨hslots, -, -, hle, -⟩ := reads_advance hadvance
  obtain ⟨hargs, hlt⟩ := arguments_reads hinner hargs
  obtain ⟨hslots', hlt'⟩ := expect_reads hclose (by decide)
  rw [hslots] at hargs
  rw [hslots']
  exact ⟨fun hlist => .rule (hlist.append hargs) (.element htyped), by omega⟩

theorem field_reads {before : List (String × Expr)} {named : String × Expr}
    (h : Reads (field inner before) scope s named s') :
    Derives scope s.slots s'.slots [named.2] ∧ s'.left < s.left := by
  simp only [field, reads_bind, reads_token] at h
  obtain ⟨_, _, ⟨rfl, rfl⟩, e, m, he, name, n, hname, h⟩ := h
  obtain ⟨he, hlt⟩ := hinner.expression he
  obtain ⟨hslots, hle⟩ := fieldName_reads hname
  rcases reads_ite.mp h with ⟨_, htaken⟩ | ⟨_, hfree⟩
  · obtain ⟨_, _, hthrow, _⟩ := reads_bind.mp htaken
    exact absurd hthrow reads_throw
  · obtain ⟨rfl, rfl⟩ := reads_pure.mp hfree
    rw [hslots]
    exact ⟨he, Nat.lt_of_le_of_lt hle hlt⟩

theorem projection_reads {e : Expr} (h : Reads (projection inner) scope s e s') :
    Derives scope s.slots s'.slots [e] ∧ s'.left < s.left := by
  simp only [projection, reads_bind, reads_modify, reads_pure] at h
  obtain ⟨_, m, hadvance, _, n, hopen, fields, o, hfields, _, p, hclose, _, _, rfl, rfl, rfl⟩ := h
  obtain ⟨hslots₁, -, -, hle, -⟩ := reads_advance hadvance
  obtain ⟨hslots₂, hlt⟩ := expect_reads hopen (by decide)
  obtain ⟨hslots₃, hlt'⟩ := expect_reads hclose (by decide)
  have hvalues : Derives scope n.slots o.slots (fields.map (·.2)) ∧ o.left < n.left := by
    refine separated_keeps (I := fun named t => Derives scope n.slots t.slots (named.map (·.2)))
      (fun h => (field_reads hinner h).2) ?_ ?_ .nil hfields
    · intro done t u hdone hu
      rw [(reads_advance hu).1]
      exact hdone
    · intro done t named u hdone hnamed
      rw [List.map_append]
      exact hdone.append (field_reads hinner hnamed).1
  constructor
  · show Derives scope s.slots p.slots _
    rw [hslots₃, ← hslots₁, ← hslots₂]
    exact .rule hvalues.1 .projection
  · have hlt'' := hvalues.2
    show p.left < s.left
    omega

theorem conditionalCall_reads {e : Expr} (h : Reads (conditionalCall inner) scope s e s') :
    Derives scope s.slots s'.slots [e] ∧ s'.left < s.left := by
  simp only [conditionalCall, reads_bind, reads_token] at h
  obtain ⟨_, _, ⟨rfl, rfl⟩, _, m, hadvance, args, n, hargs, h⟩ := h
  obtain ⟨hslots, -, -, hle, -⟩ := reads_advance hadvance
  obtain ⟨hargs, hlt⟩ := argumentList_reads hinner hargs
  rw [hslots] at hargs
  split at h
  · obtain ⟨htyped, rfl⟩ := reads_typed.mp h
    exact ⟨.rule hargs (.conditional htyped), Nat.lt_of_lt_of_le hlt hle⟩
  · exact absurd h reads_throw

theorem typeAccess_reads {ty : Ty} {text : String} {e : Expr}
    (hty : (Ty.predefined? text).or (scope.context.lookup? text) = some ty)
    (h : Reads (typeAccess inner ty) scope s e s') :
    Derives scope s.slots s'.slots [e] ∧ s'.left < s.left := by
  simp only [typeAccess, reads_bind, reads_token, reads_at?] at h
  obtain ⟨_, _, ⟨rfl, rfl⟩, _, m, hadvance, form, n, hform, _, _, ⟨rfl, rfl⟩, h⟩ := h
  obtain ⟨hslots, -, -, hle, -⟩ := reads_advance hadvance
  obtain ⟨hwrites, hslots', hle'⟩ := typeForm_reads hty hform
  rcases reads_ite.mp h with ⟨_, hcall⟩ | ⟨_, hmember⟩
  · simp only [reads_bind, reads_typed] at hcall
    obtain ⟨args, o, hargs, htyped, rfl⟩ := hcall
    obtain ⟨hargs, hlt⟩ := argumentList_reads hinner hargs
    rw [hslots', hslots] at hargs
    exact ⟨.rule hargs (.construction hwrites htyped), by omega⟩
  · obtain ⟨_, o, hdot, hmember⟩ := reads_bind.mp hmember
    obtain ⟨hslots'', hlt⟩ := expect_reads hdot (by decide)
    obtain ⟨hderives, hlt'⟩ := member_reads hinner hmember
    rw [hslots'', hslots', hslots] at hderives
    exact ⟨hderives .nil, by omega⟩

theorem named_reads {text : String} {e : Expr} (hk : s.token.kind ≠ .done) (h : Reads (named inner text) scope s e s') :
    Derives scope s.slots s'.slots [e] ∧ s'.left < s.left := by
  simp only [named, reads_bind, reads_read] at h
  obtain ⟨_, _, ⟨rfl, rfl⟩, h⟩ := h
  split at h
  · rename_i ty hty
    exact typeAccess_reads hinner hty h
  · split at h
    · rename_i hsymbol
      exact leaf_reads (.symbol hsymbol) hk h
    · rename_i l hsymbol
      simp only [reads_bind, reads_token, reads_typed] at h
      obtain ⟨_, _, ⟨rfl, rfl⟩, _, m, hadvance, args, n, hargs, htyped, rfl⟩ := h
      obtain ⟨hslots, -, -, -, hlt⟩ := reads_advance hadvance
      obtain ⟨hargs, hlt'⟩ := argumentList_reads hinner hargs
      rw [hslots] at hargs
      exact ⟨.rule hargs (.invocation hsymbol htyped), Nat.lt_trans hlt' (hlt hk)⟩
    · rename_i it _ hit
      obtain ⟨hderives, hlt⟩ := member_reads hinner h
      exact ⟨hderives (.leaf (.implicit hit)), hlt⟩
    · exact absurd h reads_fail

theorem word_reads {text : String} {e : Expr} (hk : s.token.kind ≠ .done) (h : Reads (word inner text) scope s e s') :
    Derives scope s.slots s'.slots [e] ∧ s'.left < s.left := by
  unfold word at h
  split at h
  · exact leaf_reads (.truth true) hk h
  · exact leaf_reads (.truth false) hk h
  · exact leaf_reads .null hk h
  · exact implicit_reads hk h
  · exact conditionalCall_reads hinner h
  · exact projection_reads hinner h
  · exact named_reads hinner hk h

theorem primaryStart_derived : Derived (primaryStart inner) := by
  intro scope s s' e h
  simp only [primaryStart, reads_bind, reads_token] at h
  obtain ⟨_, _, ⟨rfl, rfl⟩, h⟩ := h
  split at h <;> rename_i hk
  · exact word_reads hinner (by simp [hk]) h
  · exact literal_reads (fun _ => .quoted) (by simp [hk]) h
  · exact literal_reads (fun _ => .integer) (by simp [hk]) h
  · exact literal_reads (fun _ => .real) (by simp [hk]) h
  · simp only [reads_bind, reads_pure] at h
    obtain ⟨_, m, hadvance, e', n, he, _, o, hclose, rfl, rfl⟩ := h
    obtain ⟨hslots, -, -, hle, -⟩ := reads_advance hadvance
    obtain ⟨he, hlt⟩ := hinner.expression he
    obtain ⟨hslots', hlt'⟩ := expect_reads hclose (by decide)
    rw [hslots', ← hslots]
    exact ⟨he, by omega⟩
  · exact absurd h reads_fail

/-- What follows an expression continues its derivation. -/
theorem nextMember_reads {e : Expr} {next : Option Expr} (h : Reads (nextMember inner e) scope s next s') :
    (∃ e', next = some e' ∧
      (∀ {a}, Derives scope a s.slots [e] → Derives scope a s'.slots [e']) ∧ s'.left < s.left) ∨
      (next = none ∧ s = s') := by
  simp only [nextMember, reads_bind, reads_token] at h
  obtain ⟨_, _, ⟨rfl, rfl⟩, h⟩ := h
  split at h
  · simp only [reads_bind, reads_pure] at h
    obtain ⟨_, m, hadvance, e', _, hmember, rfl, rfl⟩ := h
    obtain ⟨hslots, -, -, hle, -⟩ := reads_advance hadvance
    obtain ⟨hderives, hlt⟩ := member_reads hinner hmember
    rw [hslots] at hderives
    exact Or.inl ⟨e', rfl, hderives, Nat.lt_of_lt_of_le hlt hle⟩
  · simp only [reads_bind, reads_pure] at h
    obtain ⟨e', _, helement, rfl, rfl⟩ := h
    exact Or.inl ⟨e', rfl, element_reads hinner helement⟩
  · obtain ⟨rfl, rfl⟩ := reads_pure.mp h
    exact Or.inr ⟨rfl, rfl⟩

theorem nextMember_left : ∀ x t y m, Reads (nextMember inner x) scope t (some y) m → m.left < t.left := by
  intro x t y m h
  rcases nextMember_reads hinner h with ⟨_, _, _, hlt⟩ | ⟨hnone, _⟩
  · exact hlt
  · simp at hnone

theorem primary_derived : Derived (primary inner) := by
  intro scope s s' e h
  obtain ⟨first, m, hfirst, hlater⟩ := reads_bind.mp h
  have hsteps := (reads_repeatStep (nextMember_left hinner)).mp hlater
  refine hsteps.keeps (I := fun x t => Derives scope s.slots t.slots [x] ∧ t.left < s.left) ?_ ?_
    (primaryStart_derived hinner hfirst)
  · rintro x t y u ⟨hx, hlt⟩ hnext
    rcases nextMember_reads hinner hnext with ⟨_, heq, hderives, hlt'⟩ | ⟨hnone, _⟩
    · cases heq
      exact ⟨hderives hx, Nat.lt_trans hlt' hlt⟩
    · simp at hnone
  · rintro x t u hx hnone
    rcases nextMember_reads hinner hnone with ⟨_, hsome, _⟩ | ⟨_, rfl⟩
    · simp at hsome
    · exact hx

theorem unary_derived : Derived (unary inner) := by
  intro scope s s' e h
  simp only [unary, reads_bind, reads_token] at h
  obtain ⟨_, _, ⟨rfl, rfl⟩, h⟩ := h
  split at h
  · exact primary_derived hinner h
  · rename_i op _
    simp only [reads_bind, reads_token] at h
    obtain ⟨_, m, hadvance, _, _, ⟨rfl, rfl⟩, h⟩ := h
    obtain ⟨hslots, -, -, hle, -⟩ := reads_advance hadvance
    rcases reads_ite.mp h with ⟨_, hfolded⟩ | ⟨_, happlied⟩
    · simp only [reads_bind, reads_modify] at hfolded
      obtain ⟨_, _, rfl, hprimary⟩ := hfolded
      obtain ⟨hderives, hlt⟩ := primary_derived hinner hprimary
      rw [← hslots]
      exact ⟨hderives, Nat.lt_of_lt_of_le hlt hle⟩
    · simp only [reads_bind, reads_typed] at happlied
      obtain ⟨operand, n, hoperand, htyped, rfl⟩ := happlied
      obtain ⟨hderives, hlt⟩ := hinner.operand hoperand
      rw [hslots] at hderives
      exact ⟨.rule hderives (.unary htyped), Nat.lt_of_lt_of_le hlt hle⟩

theorem multiplicative_derived : Derived (multiplicative inner) := by
  refine chain_derived (unary_derived hinner) ?_
  intro scope t combine l r s e s' hop h
  obtain ⟨op, hproduct, rfl⟩ := Option.map_eq_some_iff.mp hop
  obtain ⟨htyped, rfl⟩ := reads_typed.mp h
  exact ⟨.product hproduct htyped, rfl⟩

theorem additive_derived : Derived (additive inner) := by
  refine chain_derived (multiplicative_derived hinner) ?_
  intro scope t combine l r s e s' hop h
  split at hop <;> cases hop
  · obtain ⟨htyped, rfl⟩ := reads_typed.mp h
    exact ⟨.sum htyped, rfl⟩
  · obtain ⟨htyped, rfl⟩ := reads_typed.mp h
    exact ⟨.difference htyped, rfl⟩
  · obtain ⟨rfl, rfl⟩ := reads_pure.mp h
    exact ⟨.concatenation, rfl⟩

theorem comparison_derived : Derived (comparison inner) := by
  refine chain_derived (additive_derived hinner) ?_
  intro scope t combine l r s e s' hop h
  obtain ⟨op, hcompared, rfl⟩ := Option.map_eq_some_iff.mp hop
  obtain ⟨htyped, rfl⟩ := reads_typed.mp h
  exact ⟨.comparison hcompared htyped, rfl⟩

theorem conjunction_derived : Derived (conjunction inner) := by
  refine chain_derived (comparison_derived hinner) ?_
  intro scope t combine l r s e s' hop h
  split at hop <;> cases hop
  obtain ⟨htyped, rfl⟩ := reads_typed.mp h
  exact ⟨.logical (Or.inl rfl) htyped, rfl⟩

theorem disjunction_derived : Derived (disjunction inner) := by
  refine chain_derived (conjunction_derived hinner) ?_
  intro scope t combine l r s e s' hop h
  split at hop <;> cases hop
  obtain ⟨htyped, rfl⟩ := reads_typed.mp h
  exact ⟨.logical (Or.inr rfl) htyped, rfl⟩

theorem conditional_derived : Derived (conditional inner) := by
  intro scope s s' e h
  simp only [conditional, reads_bind, reads_token, reads_at?] at h
  obtain ⟨_, _, ⟨rfl, rfl⟩, test, m, htest, _, _, ⟨rfl, rfl⟩, h⟩ := h
  obtain ⟨htest, hlt⟩ := disjunction_derived hinner htest
  rcases reads_ite.mp h with ⟨_, hbranches⟩ | ⟨_, hplain⟩
  · simp only [reads_bind, reads_typed] at hbranches
    obtain ⟨_, n, hadvance, yes, o, hyes, _, p, hcolon, no, q, hno, htyped, rfl⟩ := hbranches
    obtain ⟨hslots, -, -, hle, -⟩ := reads_advance hadvance
    obtain ⟨hyes, hlt₁⟩ := hinner.expression hyes
    obtain ⟨hslots', hlt₂⟩ := expect_reads hcolon (by decide)
    obtain ⟨hno, hlt₃⟩ := hinner.expression hno
    rw [hslots] at hyes
    rw [hslots'] at hno
    exact ⟨.rule (htest.append (hyes.append hno)) (.conditional htyped), by omega⟩
  · obtain ⟨rfl, rfl⟩ := reads_pure.mp hplain
    exact ⟨htest, hlt⟩

end

/-- Every expression that the grammar reads has a derivation, whatever depth is left. -/
theorem level_derived (n : Nat) : (level n).Derived := by
  induction n with
  | zero => exact ⟨fun h => absurd h reads_fail, fun h => absurd h reads_fail⟩
  | succ n ih => exact ⟨conditional_derived ih, unary_derived ih⟩

/-- A whole text is a derived expression, converted to the type that was asked for. -/
theorem whole_reads {result : Option Ty} {e : Expr} (h : Reads (whole result) scope s e s') :
    ∃ body, Derives scope s.slots s'.slots [body] ∧ Typing.result scope.catalog body result = .ok e := by
  simp only [whole, reads_bind, reads_token, reads_typed, reads_require, reads_pure] at h
  obtain ⟨_, _, ⟨rfl, rfl⟩, body, m, hbody, e', _, ⟨hresult, rfl⟩, _, _, ⟨_, rfl⟩, rfl, rfl⟩ := h
  exact ⟨body, (level_derived maxDepth).expression hbody |>.1, hresult⟩

theorem direction_reads {up : Bool} (h : Reads direction scope s up s') :
    s'.slots = s.slots ∧ s'.left ≤ s.left := by
  simp only [direction, reads_bind, reads_token] at h
  obtain ⟨_, _, ⟨rfl, rfl⟩, h⟩ := h
  rcases reads_ite.mp h with ⟨_, hup⟩ | ⟨_, h⟩
  · obtain ⟨_, m, hadvance, hpure⟩ := reads_bind.mp hup
    obtain ⟨-, rfl⟩ := reads_pure.mp hpure
    exact ⟨(reads_advance hadvance).1, (reads_advance hadvance).2.2.2.1⟩
  · rcases reads_ite.mp h with ⟨_, hdown⟩ | ⟨_, hplain⟩
    · obtain ⟨_, m, hadvance, hpure⟩ := reads_bind.mp hdown
      obtain ⟨-, rfl⟩ := reads_pure.mp hpure
      exact ⟨(reads_advance hadvance).1, (reads_advance hadvance).2.2.2.1⟩
    · obtain ⟨-, rfl⟩ := reads_pure.mp hplain
      exact ⟨rfl, Nat.le_refl _⟩

/-- The keys of an ordering are derived one after the other, in the same scope. -/
theorem ordering_reads {keys : List (Expr × Bool)} (h : Reads ordering scope s keys s') :
    Derives scope s.slots s'.slots (keys.map (·.1)) := by
  simp only [ordering, reads_bind, reads_require, reads_pure] at h
  obtain ⟨_, m, hkeys, _, _, ⟨_, rfl⟩, rfl, rfl⟩ := h
  have hkey : ∀ {t u : Reading} {key : Expr × Bool},
      Reads (do let e ← expression; return (e, ← direction)) scope t key u →
        Derives scope t.slots u.slots [key.1] ∧ u.left < t.left := by
    intro t u key h
    simp only [reads_bind, reads_pure] at h
    obtain ⟨e, v, he, _, _, hdirection, rfl, rfl⟩ := h
    obtain ⟨hderives, hlt⟩ := (level_derived maxDepth).expression he
    obtain ⟨hslots, hle⟩ := direction_reads hdirection
    rw [hslots]
    exact ⟨hderives, Nat.lt_of_le_of_lt hle hlt⟩
  refine (separated_keeps (I := fun done t => Derives scope s.slots t.slots (done.map (·.1)))
    (fun h => (hkey h).2) ?_ ?_ .nil hkeys).1
  · intro done t u hdone hu
    rw [(reads_advance hu).1]
    exact hdone
  · intro done t key u hdone h
    rw [List.map_append]
    exact hdone.append (hkey h).1

end Grammar

end RowQuery
