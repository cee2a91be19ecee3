import RowQuery.Proofs.Resolution

/-!
What the typing rules give. For each rule a lemma says which expression it makes of its operands and how these were
promoted. What is proved about the expressions of a rule rests on this lemma, not on how the rule finds its overload.
-/

namespace RowQuery

variable {cat : Catalog} {e e' l r l' r' : Expr} {symbol : String}

/-- Two operands brought to one type: they have it already, or one of them is promoted to the type of the other. -/
inductive Unified (cat : Catalog) (l r : Expr) : Expr → Expr → Prop
  | same (h : l.ty = r.ty) : Unified cat l r l r
  | left {l' : Expr} (h : Promotes cat l r.ty true l') : Unified cat l r l' r
  | right {r' : Expr} (h : Promotes cat r l.ty true r') : Unified cat l r l r'

theorem Unified.ty_eq (h : Unified cat l r l' r') : l'.ty = r'.ty := by
  cases h with
  | same h => exact h
  | left h => exact h.ty_eq (Or.inr rfl)
  | right h => exact (h.ty_eq (Or.inr rfl)).symm

namespace Typing

/-! ### Operators -/

theorem logical_ok {op : BinaryOp} (h : logical cat op symbol l r = .ok e) :
    ∃ l' r', operands cat Signatures.logical symbol l r = .ok (l', r') ∧ e = .binary l'.ty op l' r' := by
  obtain ⟨⟨l', r'⟩, hoperands, heq⟩ := bind_eq_ok.mp h
  cases heq
  exact ⟨l', r', hoperands, rfl⟩

theorem arithmetic_ok {signatures : List (List Ty)} {op : BinaryOp}
    (h : arithmetic cat signatures op symbol l r = .ok e) :
    ∃ l' r', operands cat signatures symbol l r = .ok (l', r') ∧
      e = .binary (arithmeticType op l'.ty r'.ty) op l' r' := by
  obtain ⟨⟨l', r'⟩, hoperands, heq⟩ := bind_eq_ok.mp h
  cases heq
  exact ⟨l', r', hoperands, rfl⟩

theorem sum_ok (h : sum cat symbol l r = .ok e) :
    e = concatenation l r ∨ arithmetic cat Signatures.add .add symbol l r = .ok e := by
  unfold sum at h
  split at h
  · cases h
    exact Or.inl rfl
  · exact Or.inr h

/-! ### Comparisons -/

theorem narrowed_ok {equality : Bool} (h : narrowed equality l r = .ok e) :
    e = l ∨ r.ty.underlying.isIntegral ∧
      ∃ v, Literal.reread? l r.ty.underlying = some v ∧ e = .constant r.ty.underlying v := by
  simp only [narrowed] at h
  split at h
  · cases h
    exact Or.inl rfl
  · rename_i htarget
    split at h
    · rename_i v hread
      cases h
      simp only [Bool.or_eq_true, Bool.not_eq_true', not_or, Bool.not_eq_false] at htarget
      exact Or.inr ⟨htarget.1, v, hread, rfl⟩
    · split at h
      · cases h
      · cases h
        exact Or.inl rfl

/-- At most one operand is narrowed, to what the other one is. -/
theorem narrowLiteral_ok {equality : Bool} (h : narrowLiteral equality l r = .ok (l', r')) :
    (l' = l ∧ r' = r) ∨ (narrowed equality l r = .ok l' ∧ r' = r) ∨ (l' = l ∧ narrowed equality r l = .ok r') := by
  unfold narrowLiteral at h
  split at h
  · obtain ⟨e, he, heq⟩ := bind_eq_ok.mp h
    cases heq
    exact Or.inr (Or.inl ⟨he, rfl⟩)
  · obtain ⟨e, he, heq⟩ := bind_eq_ok.mp h
    cases heq
    exact Or.inr (Or.inr ⟨rfl, he⟩)
  · cases h
    exact Or.inl ⟨rfl, rfl⟩

/-- A reference is promoted to any other reference type that it can be assigned to. -/
theorem promotes_reference {t : Ty} (ht : t.isValueType = false) (hne : e.ty ≠ t) (h : cat.isAssignable t e.ty) :
    Promotes cat e t true (.convert t false e) := by
  refine .convert hne ?_ (Bool.or_true _)
  simpa [Catalog.isCompatible, hne, ht] using h

theorem referencePair_ok (hl : l.ty.isValueType = false) (hr : r.ty.isValueType = false)
    (h : referencePair cat symbol l r = .ok (l', r')) : Unified cat l r l' r' := by
  unfold referencePair at h
  split at h
  · rename_i hty
    cases h
    exact .same hty
  · rename_i hne
    split at h
    · rename_i hassignable
      cases h
      exact .right (promotes_reference hl (Ne.symm hne) hassignable)
    · split at h
      · rename_i hassignable
        cases h
        exact .left (promotes_reference hr hne hassignable)
      · cases h

theorem enumPair_ok (h : enumPair cat symbol l r = .ok (l', r')) : Unified cat l r l' r' := by
  unfold enumPair at h
  split at h
  · rename_i hty
    cases h
    exact .same hty
  · split at h
    · rename_i hpromoted
      cases h
      exact .right (.of_promote? hpromoted)
    · rename_i hpromoted
      cases h
      exact .left (.of_promote? hpromoted)
    · cases h

/-- References and members of enumerations are brought to one type; other operands are compared as the overloads
say, after the literal among them is narrowed. -/
theorem comparable_ok {op : BinaryOp} (h : comparable cat op symbol l r = .ok (l', r')) :
    Unified cat l r l' r' ∨ ∃ l₁ r₁, narrowLiteral op.isEquality l r = .ok (l₁, r₁) ∧
      operands cat (if op.isEquality then Signatures.equality else Signatures.relational) symbol l₁ r₁ =
        .ok (l', r') := by
  unfold comparable at h
  split at h
  · rename_i hreferences
    simp only [Bool.and_eq_true, Bool.not_eq_true'] at hreferences
    exact Or.inl (referencePair_ok hreferences.1.2 hreferences.2 h)
  · split at h
    · exact Or.inl (enumPair_ok h)
    · obtain ⟨⟨l₁, r₁⟩, hnarrow, hoperands⟩ := bind_eq_ok.mp h
      exact Or.inr ⟨l₁, r₁, hnarrow, hoperands⟩

theorem comparison_ok {op : BinaryOp} (h : comparison cat op symbol l r = .ok e) :
    ∃ l' r', comparable cat op symbol l r = .ok (l', r') ∧
      (e = .binary .boolean op l' r' ∨ l'.ty.underlying = .string ∧
        e = .binary .boolean op (.call .int32 Predefined.compareStrings none [l', r'])
          (.constant .int32 (.int32 0))) := by
  obtain ⟨⟨l', r'⟩, hcomparable, h⟩ := bind_eq_ok.mp h
  refine ⟨l', r', hcomparable, ?_⟩
  simp only at h
  split at h
  · rename_i hstrings
    cases h
    simp only [Bool.and_eq_true, decide_eq_true_eq] at hstrings
    exact Or.inr ⟨hstrings.2, rfl⟩
  · cases h
    exact Or.inl rfl

/-! ### Conditionals and conversions -/

theorem branches_ok (h : branches cat l r = .ok (l', r')) : Unified cat l r l' r' := by
  simp only [branches] at h
  split at h
  · rename_i hty
    cases h
    exact .same hty
  · split at h
    · rename_i hpromoted _
      cases h
      split at hpromoted
      · cases hpromoted
      · exact .left (.of_promote? hpromoted)
    · rename_i _ hpromoted
      cases h
      split at hpromoted
      · cases hpromoted
      · exact .right (.of_promote? hpromoted)
    · cases h
    · cases h

theorem conditional_ok {test : Expr} (h : conditional cat test l r = .ok e) :
    test.ty = .boolean ∧ ∃ l' r', Unified cat l r l' r' ∧ e = .conditional l'.ty test l' r' := by
  unfold conditional at h
  split at h
  · cases h
  · rename_i hboolean
    obtain ⟨⟨l', r'⟩, hbranches, heq⟩ := bind_eq_ok.mp h
    cases heq
    exact ⟨Decidable.not_not.mp hboolean, l', r', branches_ok hbranches, rfl⟩

theorem conversion_ok {target : Ty} (h : conversion cat e target = .ok e') :
    e' = e ∨ ∃ checked, e' = .convert target checked e := by
  simp only [conversion] at h
  split at h
  · cases h
    exact Or.inl rfl
  · split at h
    · cases h
      exact Or.inr ⟨false, rfl⟩
    · split at h
      · cases h
        exact Or.inr ⟨true, rfl⟩
      · split at h
        · cases h
          exact Or.inr ⟨false, rfl⟩
        · cases h

theorem construction_ok {ty : Ty} {args : List Expr} (h : construction cat ty args = .ok e) :
    (∃ ctor ∈ cat.constructors ty, ∃ promoted, PromotesAll cat args ctor.params promoted ∧
      e = .new ty ctor promoted) ∨ ∃ operand, args = [operand] ∧ conversion cat operand ty = .ok e := by
  unfold construction at h
  split at h
  · rename_i ctor promoted hchosen
    cases h
    obtain ⟨hmem, hpromotes⟩ := Overload.choose_found hchosen
    exact Or.inl ⟨ctor, hmem, promoted, hpromotes, rfl⟩
  · cases h
  · split at h
    · exact Or.inr ⟨_, rfl, h⟩
    · cases h

theorem result_ok {result : Option Ty} (h : Typing.result cat e result = .ok e') :
    result = none ∧ e' = e ∨ ∃ t, result = some t ∧ Promotes cat e t true e' := by
  unfold Typing.result at h
  split at h
  · cases h
    exact Or.inl ⟨rfl, rfl⟩
  · split at h
    · rename_i hpromoted
      cases h
      exact Or.inr ⟨_, rfl, .of_promote? hpromoted⟩
    · cases h

/-! ### Members and calls -/

theorem property_ok {receiver : Receiver} {name : String} (h : property cat receiver name = .ok e) :
    ∃ p, cat.property? receiver.ty name receiver.isStatic = some p ∧ e = .property p.ty p receiver.expr? := by
  unfold property at h
  split at h
  · rename_i p hp
    cases h
    exact ⟨p, hp, rfl⟩
  · cases h

theorem methodCall_ok {receiver : Receiver} {name : String} {args : List Expr}
    (h : methodCall cat receiver name args = .ok e) :
    ∃ level ∈ cat.memberChain receiver.ty, ∃ m ∈ level.methodsNamed name receiver.isStatic, ∃ promoted,
      PromotesAll cat args m.params promoted ∧ e = .call m.result m receiver.expr? promoted := by
  simp only [methodCall] at h
  split at h
  · rename_i m promoted hchosen
    cases h
    obtain ⟨_, hlevel, hm, hpromotes⟩ := Overload.chooseLevel_found hchosen
    obtain ⟨level, hchain, rfl⟩ := List.mem_map.mp hlevel
    exact ⟨level, hchain, m, hm, promoted, hpromotes, rfl⟩
  · cases h
  · cases h

theorem element_ok {args : List Expr} (h : element cat l args = .ok e) :
    (∃ item position p, l.ty = .list item ∧ args = [position] ∧ Promotes cat position .int32 false p ∧
      e = .index item l p) ∨
    ∃ level ∈ cat.memberChain l.ty, ∃ m ∈ level.indexers, ∃ promoted, PromotesAll cat args m.params promoted ∧
      e = .call m.result m (some l) promoted := by
  unfold element at h
  split at h
  · rename_i item hitem
    split at h
    · split at h
      · rename_i p hpromoted
        cases h
        exact Or.inl ⟨item, _, p, hitem, rfl, .of_promote? hpromoted, rfl⟩
      · cases h
    · cases h
  · split at h
    · rename_i m promoted hchosen
      cases h
      obtain ⟨_, hlevel, hm, hpromotes⟩ := Overload.chooseLevel_found hchosen
      obtain ⟨level, hchain, rfl⟩ := List.mem_map.mp hlevel
      exact Or.inr ⟨level, hchain, m, hm, promoted, hpromotes, rfl⟩
    · cases h
    · cases h

theorem invocation_ok {f : Lambda} {args : List Expr} (h : invocation cat f args = .ok e) :
    ∃ promoted, PromotesAll cat args f.paramTypes promoted ∧
      e = .invoke f.resultType f.params f.slots f.body promoted := by
  unfold invocation at h
  split at h
  · rename_i choice hresolve
    cases h
    obtain ⟨hindex, hpromotes⟩ := Overload.resolve_found hresolve
    have hparams : choice.params = f.paramTypes := List.mem_singleton.mp (List.mem_of_getElem? hindex)
    rw [hparams] at hpromotes
    exact ⟨choice.args, hpromotes, rfl⟩
  · cases h

/-- The body of an aggregate is its last argument, promoted unless the operation keeps its type. -/
theorem aggregate_ok {slot : Nat} {name : String} {args : List Expr} (h : aggregate cat l slot name args = .ok e) :
    ∃ op params promoted body, (op, params) ∈ Signatures.aggregatesNamed name ∧ PromotesAll cat args params promoted ∧
      body = (if op = .min ∨ op = .max then args.getLast? else promoted.getLast?) ∧
      e = .aggregate (aggregateType cat op l.ty (body.map (·.ty))) op slot l body := by
  unfold aggregate at h
  split at h
  · rename_i op params promoted hchosen
    cases h
    obtain ⟨hmem, hpromotes⟩ := Overload.choose_found hchosen
    exact ⟨op, params, promoted, _, hmem, hpromotes, rfl, rfl⟩
  · cases h

end Typing

end RowQuery
