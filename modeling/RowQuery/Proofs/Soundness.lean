import RowQuery.Proofs.Compilation
import RowQuery.Proofs.TypedEvaluation

/-!
Type soundness of compiled expressions. Operations on items are sound for items of the element type, and
with the typing rules that makes every derived expression typed in the slots of its scope. A compiled
expression, evaluated for arguments of the types of its parameters, therefore gives a value of its own type
or fails for a reason that types do not exclude.
-/

namespace RowQuery

variable {cat : Catalog} {Γ : SlotTypes}

/-! ### Repetition -/

theorem forall₂_diagonal {α : Type} {P : α → Prop} {as bs : List α} :
    List.Forall₂ (fun a b => a = b ∧ P a) as bs ↔ as = bs ∧ ∀ a ∈ as, P a := by
  constructor
  · intro h
    induction h with
    | nil => exact ⟨rfl, fun a ha => absurd ha List.not_mem_nil⟩
    | cons hhead _ ih =>
        obtain ⟨rfl, ha⟩ := hhead
        obtain ⟨rfl, has⟩ := ih
        exact ⟨rfl, List.forall_mem_cons.mpr ⟨ha, has⟩⟩
  · rintro ⟨rfl, h⟩
    exact List.forall₂_same.mpr fun a ha => ⟨rfl, h a ha⟩

namespace Sound

variable {α β : Type} {P : α → Prop} {as : List α}

theorem foldlM {I : β → Prop} {f : β → α → Eval β}
    (h : ∀ x a, I x → P a → Sound cat Γ (f x a) I) (has : ∀ a ∈ as, P a) {x : β} (hx : I x) :
    Sound cat Γ (as.foldlM f x) I := by
  refine Eval.Related.foldlM (Q := fun a b => a = b ∧ P a) ?_ (forall₂_diagonal.mpr ⟨rfl, has⟩) ⟨rfl, hx⟩
  rintro x _ a _ ⟨rfl, hx⟩ ⟨rfl, ha⟩
  exact h x a hx ha

theorem mapM {S : β → Prop} {f : α → Eval β} (h : ∀ a, P a → Sound cat Γ (f a) S)
    (has : ∀ a ∈ as, P a) : Sound cat Γ (as.mapM f) fun bs => ∀ b ∈ bs, S b := by
  refine Eval.Related.mono (Eval.Related.mapM (Q := fun a b => a = b ∧ P a)
    (S := fun a b => a = b ∧ S a) ?_ (forall₂_diagonal.mpr ⟨rfl, has⟩)) fun _ _ => forall₂_diagonal.mp
  rintro a _ ⟨rfl, ha⟩
  exact h a ha

variable {f : α → Eval Bool} (h : ∀ a, P a → Sound cat Γ (f a) fun _ => True) (has : ∀ a ∈ as, P a)

include h has

theorem filterM : Sound cat Γ (as.filterM f) fun kept => ∀ a ∈ kept, P a := by
  refine Eval.Related.mono (Eval.Related.filterM (Q := fun a b => a = b ∧ P a) ?_
    (forall₂_diagonal.mpr ⟨rfl, has⟩)) fun _ _ => forall₂_diagonal.mp
  rintro a _ ⟨rfl, ha⟩
  exact Eval.Related.mono (h a ha) fun _ _ => And.left

theorem anyM : Sound cat Γ (as.anyM f) fun _ => True := by
  refine Eval.Related.mono (Eval.Related.anyM (Q := fun a b => a = b ∧ P a) ?_
    (forall₂_diagonal.mpr ⟨rfl, has⟩)) fun _ _ heq => ⟨heq, trivial⟩
  rintro a _ ⟨rfl, ha⟩
  exact Eval.Related.mono (h a ha) fun _ _ => And.left

theorem allM : Sound cat Γ (as.allM f) fun _ => True := by
  refine Eval.Related.mono (Eval.Related.allM (Q := fun a b => a = b ∧ P a) ?_
    (forall₂_diagonal.mpr ⟨rfl, has⟩)) fun _ _ heq => ⟨heq, trivial⟩
  rintro a _ ⟨rfl, ha⟩
  exact Eval.Related.mono (h a ha) fun _ _ => And.left

end Sound

/-! ### Operations on items -/

namespace Aggregate

variable {item : Ty} {items : List Value} {select : Value → Eval Value} {t : Ty}

theorem sound_holds {op : AggregateOp}
    (hselect : ∀ v, cat.conforms v item → Sound cat Γ (select v) fun w => cat.conforms w .boolean)
    (v : Value) (hv : cat.conforms v item) : Sound cat Γ (holds op select v) fun _ => True := by
  refine Sound.bind (hselect v hv) fun w hw => ?_
  obtain ⟨b, rfl⟩ := Catalog.conforms_boolean.mp hw
  exact Sound.pure trivial

theorem yields_countValue (n : Nat) : Yields (countValue n) fun v => cat.conforms v .int32 := by
  unfold countValue
  split
  · exact Catalog.conforms_int.mpr ⟨_, rfl⟩
  · rfl

theorem yields_empty (t : Ty) : Yields (empty t) fun v => cat.conforms v t := by
  unfold empty
  split
  · rename_i hadmits
    exact Catalog.conforms_null.trans hadmits
  · rfl

/-- The best value so far is one of those selected. -/
theorem yields_better (op : AggregateOp) {best : Option Value} {v : Value}
    (hbest : ∀ b, best = some b → cat.conforms b t) (hv : cat.conforms v t) :
    Yields (better op best v) fun next => ∀ b, next = some b → cat.conforms b t := by
  cases best with
  | none =>
      intro b hb
      cases hb
      exact hv
  | some b =>
      refine Yields.bind (Value.yields_compare v b) fun order _ => ?_
      intro w hw
      by_cases hwins : order = if op = .min then .lt else .gt
      · rw [if_pos hwins] at hw
        cases hw
        exact hv
      · rw [if_neg hwins] at hw
        cases hw
        exact hbest b rfl

theorem sound_extreme {op : AggregateOp} (hop : op = .min ∨ op = .max) {body : Option Ty}
    (hselect : ∀ v, cat.conforms v item → Sound cat Γ (select v) fun w => cat.conforms w t)
    (hitems : ∀ v ∈ items, cat.conforms v item) :
    Sound cat Γ (apply op items body t select) fun v => cat.conforms v t := by
  have hbest : Sound cat Γ (items.foldlM (fun best item => do
      let v ← select item
      if v.isNull then return best else rule (better op best v)) none)
      fun best => ∀ b, best = some b → cat.conforms b t := by
    refine Sound.foldlM (P := fun v => cat.conforms v item) ?_ hitems (fun b hb => by cases hb)
    intro best v hbest hv
    refine Sound.bind (hselect v hv) fun w hw => ?_
    split
    · exact Sound.pure hbest
    · exact Sound.rule (yields_better op hbest hw)
  obtain ⟨conclude, happly, hsome, hnone⟩ : ∃ conclude : Option Value → Eval Value,
      apply op items body t select = items.foldlM (fun best item => do
        let v ← select item
        if v.isNull then return best else rule (better op best v)) none >>= conclude ∧
      (∀ v, conclude (some v) = pure v) ∧ conclude none = rule (empty t) := by
    rcases hop with rfl | rfl <;> exact ⟨_, rfl, fun _ => rfl, rfl⟩
  rw [happly]
  refine Sound.bind hbest fun best hbest => ?_
  cases best with
  | some v =>
      rw [hsome]
      exact Sound.pure (hbest v rfl)
  | none =>
      rw [hnone]
      exact Sound.rule (yields_empty t)

/-- The types whose values can be added up. -/
def summable : List Ty := Signatures.withNullable [.int32, .int64, .single, .double, .decimal]

theorem conforms_zero (ht : t ∈ summable) : t.zero.isNull = false ∧ cat.conforms t.zero t := by
  simp only [summable, Signatures.withNullable, List.map, List.cons_append, List.nil_append, List.mem_cons,
    List.not_mem_nil, or_false] at ht
  rcases ht with rfl | rfl | rfl | rfl | rfl | rfl | rfl | rfl | rfl | rfl <;> exact ⟨rfl, rfl⟩

theorem yields_addTerm {u : Ty} (hu : u ∈ ([.int32, .int64, .single, .double, .decimal] : List Ty))
    {total v : Value} (htotal : cat.conforms total u) (hv : cat.conforms v u) :
    Yields (addTerm total v) fun w => cat.conforms w u := by
  simp only [List.mem_cons, List.not_mem_nil, or_false] at hu
  rcases hu with rfl | rfl | rfl | rfl | rfl
  · obtain ⟨m, rfl⟩ := Catalog.conforms_int.mp htotal
    obtain ⟨n, rfl⟩ := Catalog.conforms_int.mp hv
    simp only [addTerm]
    cases Word.ofInt? .int32 (m.val + n.val) with
    | some w => exact Catalog.conforms_int.mpr ⟨w, rfl⟩
    | none => rfl
  · obtain ⟨m, rfl⟩ := Catalog.conforms_int.mp htotal
    obtain ⟨n, rfl⟩ := Catalog.conforms_int.mp hv
    simp only [addTerm]
    cases Word.ofInt? .int64 (m.val + n.val) with
    | some w => exact Catalog.conforms_int.mpr ⟨w, rfl⟩
    | none => rfl
  · obtain ⟨x, rfl⟩ := Catalog.conforms_single.mp htotal
    obtain ⟨y, rfl⟩ := Catalog.conforms_single.mp hv
    exact Catalog.conforms_single.mpr ⟨_, rfl⟩
  · obtain ⟨x, rfl⟩ := Catalog.conforms_double.mp htotal
    obtain ⟨y, rfl⟩ := Catalog.conforms_double.mp hv
    exact Catalog.conforms_double.mpr ⟨_, rfl⟩
  · obtain ⟨d, rfl⟩ := Catalog.conforms_decimal.mp htotal
    obtain ⟨e, rfl⟩ := Catalog.conforms_decimal.mp hv
    simp only [addTerm]
    cases d.add? e with
    | some sum => exact Catalog.conforms_decimal.mpr ⟨sum, rfl⟩
    | none => rfl

theorem sound_sum (ht : t ∈ summable)
    (hselect : ∀ v, cat.conforms v item → Sound cat Γ (select v) fun w => cat.conforms w t)
    (hitems : ∀ v ∈ items, cat.conforms v item) :
    Sound cat Γ (apply .sum items (some t) t select) fun v => cat.conforms v t := by
  obtain ⟨u, hu, hform⟩ := Signatures.mem_withNullable.mp ht
  have hplain : ∀ u ∈ ([.int32, .int64, .single, .double, .decimal] : List Ty),
      u.underlying = u ∧ u.admitsNull = false := by decide
  have hunder : t.underlying = u.underlying := by
    rcases hform with rfl | rfl
    · rfl
    · exact (hplain u hu).1.symm
  -- the sum so far is never absent, so it is a value of the type under `t`
  have hsum : Sound cat Γ (apply .sum items (some t) t select) fun v =>
      v.isNull = false ∧ cat.conforms v t := by
    refine Sound.foldlM (P := fun v => cat.conforms v item) ?_ hitems (conforms_zero ht)
    rintro total v ⟨hpresent, htotal⟩ hv
    refine Sound.bind (hselect v hv) fun w hw => ?_
    split
    · exact Sound.pure ⟨hpresent, htotal⟩
    · rename_i hnull
      rw [Catalog.conforms_congr hpresent hunder] at htotal
      rw [Catalog.conforms_congr (by simpa using hnull) hunder] at hw
      refine Sound.rule ((yields_addTerm hu htotal hw).mono fun x hx => ?_)
      have hx' := Catalog.isNull_eq_false hx (hplain u hu).2
      exact ⟨hx', (Catalog.conforms_congr hx' hunder).trans hx⟩
  exact hsum.mono fun v hv => hv.2

theorem yields_decimalSum (values : List Value) : Yields (decimalSum values) fun _ => True := by
  unfold decimalSum
  generalize Decimal.zero = total
  induction values generalizing total with
  | nil => exact trivial
  | cons v values ih =>
      rw [List.foldlM_cons]
      refine Yields.bind (Q := fun _ => True) ?_ fun next _ => ih next
      split
      · split
        · exact trivial
        · rfl
      · exact trivial

/-- A mean is of the type that typing finds for it. -/
theorem yields_mean (values : List Value) {result : Ty}
    (hresult : result.underlying ∈ ([.single, .double, .decimal] : List Ty)) :
    Yields (mean values result) fun v => cat.conforms v result := by
  simp only [List.mem_cons, List.not_mem_nil, or_false] at hresult
  simp only [mean]
  rcases hresult with h | h | h
  · simp [h, Yields, Catalog.conforms]
  · simp [h, Yields, Catalog.conforms]
  · simp only [h]
    refine (yields_decimalSum values).bind fun total _ => ?_
    split
    · simp [Yields, pure, Except.pure, Catalog.conforms, h]
    · rfl

theorem sound_average {result : Ty} (hresult : result.underlying ∈ ([.single, .double, .decimal] : List Ty))
    {body : Option Ty}
    (hselect : ∀ v, cat.conforms v item → Sound cat Γ (select v) fun w => cat.conforms w t)
    (hitems : ∀ v ∈ items, cat.conforms v item) :
    Sound cat Γ (apply .average items body result select) fun v => cat.conforms v result := by
  refine Sound.bind (Sound.mapM hselect hitems) fun values _ => ?_
  simp only
  split
  · exact Sound.rule (yields_empty result)
  · exact Sound.rule (yields_mean _ hresult)

/-- The operations that a condition on items decides. -/
theorem sound_conditional {op : AggregateOp} (hop : op ∈ [.filter, .any, .all, .count]) {source result : Ty}
    (hitem : cat.elementType? source = some item)
    (hresult : result = Typing.aggregateType cat op source (some .boolean))
    (hselect : ∀ v, cat.conforms v item → Sound cat Γ (select v) fun w => cat.conforms w .boolean)
    (hitems : ∀ v ∈ items, cat.conforms v item) :
    Sound cat Γ (apply op items (some .boolean) result select) fun v => cat.conforms v result := by
  subst hresult
  simp only [List.mem_cons, List.not_mem_nil, or_false] at hop
  rcases hop with rfl | rfl | rfl | rfl
  · refine Sound.bind (Sound.filterM (sound_holds hselect) hitems) fun kept hkept => Sound.pure ?_
    simp only [Typing.aggregateType, hitem, Option.getD_some, Catalog.conforms, Ty.underlying]
    exact Catalog.conformEach_iff.mpr hkept
  · exact Sound.bind (Sound.anyM (sound_holds hselect) hitems) fun found _ =>
      Sound.pure (Catalog.conforms_boolean.mpr ⟨found, rfl⟩)
  · exact Sound.bind (Sound.allM (sound_holds hselect) hitems) fun found _ =>
      Sound.pure (Catalog.conforms_boolean.mpr ⟨found, rfl⟩)
  · exact Sound.bind (Sound.filterM (sound_holds hselect) hitems) fun kept _ =>
      Sound.rule (yields_countValue kept.length)

theorem mem_aggregates {op : AggregateOp} {params : List Ty} (h : (op, params) ∈ Signatures.aggregates) :
    (params = [] ∧ (op = .any ∨ op = .count)) ∨
    (params = [.boolean] ∧ op ∈ [.filter, .any, .all, .count]) ∨
    (params = [.object] ∧ (op = .min ∨ op = .max)) ∨
    ∃ t ∈ summable, params = [t] ∧ (op = .sum ∨ op = .average) := by
  rcases List.mem_append.mp h with h | h
  · rcases List.mem_append.mp h with h | h
    · simp only [List.mem_cons, Prod.mk.injEq, List.not_mem_nil, or_false] at h
      rcases h with ⟨rfl, rfl⟩ | ⟨rfl, rfl⟩ | ⟨rfl, rfl⟩ | ⟨rfl, rfl⟩ | ⟨rfl, rfl⟩ | ⟨rfl, rfl⟩ |
        ⟨rfl, rfl⟩ | ⟨rfl, rfl⟩ <;> simp
    · obtain ⟨t, ht, heq⟩ := List.mem_map.mp h
      cases heq
      exact Or.inr (Or.inr (Or.inr ⟨t, ht, rfl, Or.inl rfl⟩))
  · obtain ⟨t, ht, heq⟩ := List.mem_map.mp h
    cases heq
    exact Or.inr (Or.inr (Or.inr ⟨t, ht, rfl, Or.inr rfl⟩))

/-- The items of a source are of its element type. -/
theorem yields_sourceItems (hcat : cat.WellBehaved) (op : AggregateOp) {source : Ty} {v : Value}
    (hitem : cat.elementType? source = some item) (hv : cat.conforms v source) :
    Yields (Eval.sourceItems cat op v) fun items => ∀ w ∈ items, cat.conforms w item := by
  unfold Catalog.elementType? at hitem
  split at hitem
  · cases hitem
    rcases Catalog.conforms_list hv with rfl | ⟨items, rfl, hitems⟩
    · rfl
    · exact hitems
  · cases hitem
    rcases Catalog.conforms_grouping hv with rfl | ⟨key, items, rfl, -, hitems⟩
    · rfl
    · exact hitems
  · rename_i c
    cases v with
    | null => rfl
    | object d fields items =>
        simp only [Catalog.conforms, Ty.underlying, Bool.and_eq_true] at hv
        have helement := hcat.element d c item hv.1.1 hitem
        simp only [Eval.sourceItems, Value.isNull, Catalog.items?, helement]
        rw [helement] at hv
        exact Catalog.conformEach_iff.mp hv.2
    | _ => simp [Catalog.conforms, Ty.underlying] at hv
  · cases hitem

end Aggregate

theorem typed_aggregate_without (hcat : cat.WellBehaved) {source : Expr} {item t : Ty} {op : AggregateOp}
    {n : Nat} (hsource : Typed cat Γ source) (hitem : cat.elementType? source.ty = some item)
    (h : ∀ items : List Value, (∀ v ∈ items, cat.conforms v item) →
      Sound cat Γ (Aggregate.apply op items none t pure) fun v => cat.conforms v t) :
    Typed cat Γ (.aggregate t op n source none) := by
  rw [Typed, Fits, Catalog.eval]
  refine Sound.bind hsource fun v hv => ?_
  exact Sound.bind (Sound.rule (Aggregate.yields_sourceItems hcat op hitem hv)) h

/-- An operation on items is typed if it is sound for a selector that is: each item is bound in a slot of
its own. -/
theorem typed_aggregate_with (hcat : cat.WellBehaved) {source body : Expr} {item t : Ty} {op : AggregateOp}
    {n : Nat} (hn : Γ n = none) (hsource : Typed cat Γ source)
    (hitem : cat.elementType? source.ty = some item) (hbody : Typed cat (Γ.bind n item) body)
    (h : ∀ (items : List Value) (select : Value → Eval Value), (∀ v ∈ items, cat.conforms v item) →
      (∀ v, cat.conforms v item → Sound cat Γ (select v) fun w => cat.conforms w body.ty) →
      Sound cat Γ (Aggregate.apply op items (some body.ty) t select) fun v => cat.conforms v t) :
    Typed cat Γ (.aggregate t op n source (some body)) := by
  rw [Typed, Fits, Catalog.eval]
  refine Sound.bind hsource fun v hv => ?_
  refine Sound.bind (Sound.rule (Aggregate.yields_sourceItems hcat op hitem hv)) fun items hitems => ?_
  exact h items _ hitems fun w hw => Sound.binding hn hw hbody

/-- The typing rule for operations on items. -/
theorem typed_aggregate (hcat : cat.WellBehaved) {source : Expr} {n : Nat} {name : String}
    {args : List Expr} {e : Expr} {item : Ty} (hn : Γ n = none) (hsource : Typed cat Γ source)
    (hitem : cat.elementType? source.ty = some item)
    (hargs : ∀ a ∈ args, Typed cat (Γ.bind n item) a)
    (h : Typing.aggregate cat source n name args = .ok e) : Typed cat Γ e := by
  obtain ⟨op, params, promoted, body, hmem, hpromotes, rfl, rfl⟩ := Typing.aggregate_ok h
  rcases Aggregate.mem_aggregates (List.mem_filter.mp hmem).1 with
    ⟨rfl, hop⟩ | ⟨rfl, hop⟩ | ⟨rfl, hop⟩ | ⟨t, ht, rfl, hop⟩
  · cases hpromotes
    simp only [List.getLast?_nil, ite_self, Option.map_none]
    refine typed_aggregate_without hcat hsource hitem fun items _ => ?_
    rcases hop with rfl | rfl
    · exact Sound.pure (Catalog.conforms_boolean.mpr ⟨_, rfl⟩)
    · exact Sound.rule (Aggregate.yields_countValue _)
  · obtain ⟨a, p, rfl, rfl, harg⟩ := hpromotes.singleton
    have hbody := (harg.typed hcat.layered (hargs a List.mem_cons_self)).1
    have hty := harg.ty_eq (Or.inl rfl)
    have hkind : ¬(op = .min ∨ op = .max) := by
      rintro (rfl | rfl) <;> simp at hop
    simp only [if_neg hkind, List.getLast?_singleton, Option.map_some, hty]
    refine typed_aggregate_with hcat hn hsource hitem hbody fun items select hitems hselect => ?_
    rw [hty] at hselect ⊢
    exact Aggregate.sound_conditional hop hitem rfl hselect hitems
  · obtain ⟨a, p, rfl, rfl, -⟩ := hpromotes.singleton
    simp only [if_pos hop, List.getLast?_singleton, Option.map_some]
    have hty : Typing.aggregateType cat op source.ty (some a.ty) = a.ty := by
      rcases hop with rfl | rfl <;> rfl
    rw [hty]
    exact typed_aggregate_with hcat hn hsource hitem (hargs a List.mem_cons_self)
      fun items select hitems hselect => Aggregate.sound_extreme hop hselect hitems
  · obtain ⟨a, p, rfl, rfl, harg⟩ := hpromotes.singleton
    have hvalues : ∀ t ∈ Aggregate.summable, t.isValueType := by decide
    have hbody := (harg.typed hcat.layered (hargs a List.mem_cons_self)).1
    have hty := harg.ty_eq (Or.inl (hvalues t ht))
    have hkind : ¬(op = .min ∨ op = .max) := by
      rintro (rfl | rfl) <;> simp at hop
    simp only [if_neg hkind, List.getLast?_singleton, Option.map_some, hty]
    refine typed_aggregate_with hcat hn hsource hitem hbody fun items select hitems hselect => ?_
    rw [hty] at hselect ⊢
    rcases hop with rfl | rfl
    · exact Aggregate.sound_sum ht hselect hitems
    · have hmeans : ∀ t ∈ Aggregate.summable,
          (Typing.aggregateType .empty .average .object (some t)).underlying ∈
            ([.single, .double, .decimal] : List Ty) := by decide
      exact Aggregate.sound_average (hmeans t ht) hselect hitems

/-! ### Derived expressions -/

/-- What a name may stand for, in slots of given types: the parameter in a slot, a value of its type, or a
safe expression. -/
def Symbol.Sound (cat : Catalog) (Γ : SlotTypes) : Symbol → Prop
  | .expr e => (∃ t n, e = .param t n ∧ Γ n = some t) ∨ ∃ t v, e = .constant t v ∧ cat.conforms v t
  | .lambda l => l.Safe cat

theorem Symbol.Sound.mono {Γ Γ' : SlotTypes} (hΓ : ∀ n t, Γ n = some t → Γ' n = some t) {sym : Symbol}
    (h : sym.Sound cat Γ) : sym.Sound cat Γ' := by
  cases sym with
  | expr e => exact h.imp_left fun ⟨t, n, he, hn⟩ => ⟨t, n, he, hΓ n t hn⟩
  | lambda l => exact h

/-- A scope whose names and implicit parameter stand for what they may. -/
structure Scope.Sound (cat : Catalog) (Γ : SlotTypes) (scope : Scope) : Prop where
  catalog : scope.catalog = cat
  /-- Conversions to types that can be written never have to make up items. -/
  types : ∀ ty, scope.Writes ty → Catalog.isCastTarget ty
  implicit : ∀ e, scope.it = some e → ∃ t n, e = .param t n ∧ Γ n = some t
  symbols : ∀ name sym, scope.symbols.lookup name = some sym → sym.Sound cat Γ

namespace Scope.Sound

variable {scope : Scope}

theorem typed_implicit (h : scope.Sound cat Γ) {e : Expr} (he : scope.it = some e) : Typed cat Γ e := by
  obtain ⟨t, n, rfl, hn⟩ := h.implicit e he
  exact typed_param hn

theorem typed_symbol (h : scope.Sound cat Γ) {name : String} {e : Expr}
    (he : scope.symbols.lookup name = some (.expr e)) : Typed cat Γ e := by
  rcases h.symbols name _ he with ⟨t, n, rfl, hn⟩ | ⟨t, v, rfl, hv⟩
  · exact typed_param hn
  · exact typed_constant hv

/-- The arguments of an operation on items are read in a sound scope, with the item in a new slot. -/
theorem bind (h : scope.Sound cat Γ) {n : Nat} (hn : Γ n = none) (item : Ty) :
    ({ scope with it := some (.param item n) } : Scope).Sound cat (Γ.bind n item) := by
  have hkeep : ∀ m t, Γ m = some t → Γ.bind n item m = some t := by
    intro m t hm
    have hmn : m ≠ n := by
      rintro rfl
      rw [hn] at hm
      cases hm
    simpa [SlotTypes.bind, hmn] using hm
  refine ⟨h.catalog, fun ty hty => h.types ty ?_, ?_, fun name sym hsym => (h.symbols name sym hsym).mono hkeep⟩
  · cases hty with
    | named hname => exact .named hname
    | nullable hname hform => exact .nullable hname hform
  · rintro e he
    cases he
    exact ⟨item, n, rfl, by simp [SlotTypes.bind]⟩

end Scope.Sound

theorem typed_quoted {text : String} {e : Expr} (h : Grammar.quotedLiteral? text = some e) :
    Typed cat Γ e := by
  unfold Grammar.quotedLiteral? at h
  split at h
  · cases h
  · simp only at h
    split at h
    · split at h
      · cases h
        exact typed_literal (Catalog.conforms_char.mpr ⟨_, rfl⟩)
      · cases h
    · cases h
      exact typed_literal rfl

theorem typed_integer {text : String} {e : Expr} (h : Grammar.integerLiteral? text = some e) :
    Typed cat Γ e := by
  simp only [Grammar.integerLiteral?, Option.bind_eq_some_iff] at h
  obtain ⟨n, -, h⟩ := h
  obtain ⟨k, -, h⟩ := List.exists_of_findSome?_eq_some h
  obtain ⟨w, -, rfl⟩ := Option.map_eq_some_iff.mp h
  exact typed_literal (Catalog.conforms_int.mpr ⟨w, rfl⟩)

theorem typed_real {text : String} {e : Expr} (h : Grammar.realLiteral? text = some e) :
    Typed cat Γ e := by
  unfold Grammar.realLiteral? at h
  split at h
  · obtain ⟨x, -, rfl⟩ := Option.map_eq_some_iff.mp h
    exact typed_literal (Catalog.conforms_single.mpr ⟨x, rfl⟩)
  · obtain ⟨x, -, rfl⟩ := Option.map_eq_some_iff.mp h
    exact typed_literal (Catalog.conforms_single.mpr ⟨x, rfl⟩)
  · obtain ⟨x, -, rfl⟩ := Option.map_eq_some_iff.mp h
    exact typed_literal (Catalog.conforms_double.mpr ⟨x, rfl⟩)

theorem Leaf.typed {scope : Scope} (hscope : scope.Sound cat Γ) {e : Expr} (h : Leaf scope e) :
    Typed cat Γ e := by
  cases h with
  | quoted h => exact typed_quoted h
  | integer h => exact typed_integer h
  | real h => exact typed_real h
  | truth b => exact typed_constant (Catalog.conforms_boolean.mpr ⟨b, rfl⟩)
  | null => exact typed_literal rfl
  | implicit h => exact hscope.typed_implicit h
  | symbol h => exact hscope.typed_symbol h

theorem overloads_product {t : Token} {op : BinaryOp} (h : Grammar.multiplicativeOperator? t = some op) :
    Value.arithmeticOverloads op = Signatures.arithmetic := by
  unfold Grammar.multiplicativeOperator? at h
  split at h
  · cases h
    rfl
  · cases h
    rfl
  · cases h
    rfl
  · split at h
    · cases h
      rfl
    · cases h

/-- Every typing rule makes a typed expression of typed ones. -/
theorem Rule.typed (hcat : cat.WellBehaved) {scope : Scope} (hscope : scope.Sound cat Γ)
    {es : List Expr} {e : Expr} (h : Rule scope es e) (hes : ∀ e ∈ es, Typed cat Γ e) :
    Typed cat Γ e := by
  have hsame := hscope.catalog
  cases h with
  | logical hop h =>
      rw [hsame] at h
      simp only [List.forall_mem_cons] at hes
      exact typed_logical hcat.layered hop h hes.1 hes.2.1
  | comparison hop h =>
      rw [hsame] at h
      simp only [List.forall_mem_cons] at hes
      exact typed_comparison hcat.layered ⟨_, hop⟩ h hes.1 hes.2.1
  | product hop h =>
      rw [hsame, ← overloads_product hop] at h
      simp only [List.forall_mem_cons] at hes
      exact typed_arithmetic hcat.layered h hes.1 hes.2.1
  | difference h =>
      have hoverloads : Signatures.subtract = Value.arithmeticOverloads .subtract := rfl
      rw [hsame, hoverloads] at h
      simp only [List.forall_mem_cons] at hes
      exact typed_arithmetic hcat.layered h hes.1 hes.2.1
  | sum h =>
      rw [hsame] at h
      simp only [List.forall_mem_cons] at hes
      exact typed_sum hcat.layered h hes.1 hes.2.1
  | concatenation =>
      simp only [List.forall_mem_cons] at hes
      exact typed_concatenation hes.1 hes.2.1
  | unary h =>
      rw [hsame] at h
      simp only [List.forall_mem_cons] at hes
      exact typed_unary hcat.layered h hes.1
  | conditional h =>
      rw [hsame] at h
      simp only [List.forall_mem_cons] at hes
      exact typed_conditional hcat.layered h hes.1 hes.2.1 hes.2.2.1
  | construction hty h =>
      rw [hsame] at h
      exact typed_construction hcat (hscope.types _ hty) h hes
  | property h =>
      rw [hsame] at h
      exact typed_property hcat h hes
  | methodCall h =>
      rw [hsame] at h
      exact typed_methodCall hcat h hes
  | element h =>
      rw [hsame] at h
      simp only [List.forall_mem_cons] at hes
      exact typed_element hcat h hes.1 hes.2
  | invocation hl h =>
      rw [hsame] at h
      exact typed_invocation hcat.layered (hscope.symbols _ _ hl) h hes
  | projection => exact typed_projection hes

/-- Derived expressions are typed in the slots of their scope, as long as no slot from the first free one
on is in use. -/
theorem Derives.typed (hcat : cat.WellBehaved) {scope : Scope} {a b : Nat} {es : List Expr}
    (h : Derives scope a b es) (hscope : scope.Sound cat Γ) (hfree : ∀ n, a ≤ n → Γ n = none) :
    ∀ e ∈ es, Typed cat Γ e := by
  induction h generalizing Γ with
  | nil => exact fun e he => absurd he List.not_mem_nil
  | cons head tail ihhead ihtail =>
      rw [List.forall_mem_cons]
      exact ⟨ihhead hscope hfree _ List.mem_cons_self,
        ihtail hscope fun n hn => hfree n (Nat.le_trans head.le hn)⟩
  | leaf h => exact List.forall_mem_singleton.mpr (h.typed hscope)
  | rule _ h ih => exact List.forall_mem_singleton.mpr (h.typed hcat hscope (ih hscope hfree))
  | @aggregate scope a b c source e name item args hsource hitem hargs h ihsource ihargs =>
      have hb : Γ b = none := hfree b hsource.le
      rw [hscope.catalog] at hitem h
      have helement : cat.elementType? source.ty = some item := by
        simp only [Typing.Receiver.aggregated?] at hitem
        split at hitem
        · cases hitem
        · exact hitem
      have hfree' : ∀ n, b + 1 ≤ n → Γ.bind b item n = none := by
        intro n hn
        have hne : n ≠ b := by omega
        simp only [SlotTypes.bind, hne, if_false]
        exact hfree n (by have := hsource.le; omega)
      refine List.forall_mem_singleton.mpr ?_
      exact typed_aggregate hcat hb (ihsource hscope hfree _ List.mem_cons_self) helement
        (ihargs (hscope.bind hb item) hfree') h

/-! ### Compiled expressions -/

namespace Context

theorem forall_insert {P : Ty → Prop} {ctx : Context} (h : ∀ x ∈ ctx.named, P x.2) {ty : Ty}
    (hty : (nameOf? ty).isSome → P ty) : ∀ x ∈ (ctx.insert ty).named, P x.2 := by
  unfold insert
  split
  · exact h
  · rename_i name hname
    split
    · exact h
    · exact List.forall_mem_append.mpr ⟨h, List.forall_mem_singleton.mpr (hty (by rw [hname]; rfl))⟩

/-- The types that a context names are classes and enumerations. -/
theorem isSome_nameOf? {types : List Ty} {text : String} {ty : Ty}
    (h : (ofTypes types).lookup? text = some ty) : (nameOf? ty).isSome := by
  have hall : ∀ (types : List Ty) (ctx : Context), (∀ x ∈ ctx.named, (nameOf? x.2).isSome) →
      ∀ x ∈ (types.foldl insert ctx).named, (nameOf? x.2).isSome := by
    intro types
    induction types with
    | nil => exact fun _ hctx => hctx
    | cons t types ih =>
        exact fun ctx hctx => ih _ (forall_insert (P := fun t => (nameOf? t).isSome) hctx fun ht => ht)
  exact hall types empty (by simp [empty]) _ (mem_of_lookup h)

end Context

/-- No type that can be written has items of its own. -/
theorem Scope.Writes.isCastTarget {scope : Scope} {types : List Ty}
    (hcontext : scope.context = Context.ofTypes types) {ty : Ty} (h : scope.Writes ty) :
    Catalog.isCastTarget ty := by
  have hnamed : ∀ {text : String} {ty : Ty},
      (Ty.predefined? text).or (scope.context.lookup? text) = some ty → Catalog.isCastTarget ty := by
    intro text ty h
    rw [hcontext] at h
    rcases Option.or_eq_some_iff.mp h with hpredefined | ⟨-, hlookup⟩
    · unfold Ty.predefined? at hpredefined
      split at hpredefined <;> cases hpredefined <;> rfl
    · have hname := Context.isSome_nameOf? hlookup
      cases ty with
      | enum e => rfl
      | cls c => rfl
      | _ => cases hname
  cases h with
  | named hname => exact hnamed hname
  | @nullable _ ty _ hname hform =>
      unfold Typing.nullable at hform
      split at hform
      · rename_i hvalue
        cases hform
        cases ty with
        | list _ | grouping _ _ => simp [Ty.isValueType] at hvalue
        | _ => rfl
      · cases hform

/-- The types of the slots of parameters. -/
def SlotTypes.ofTypes (types : List Ty) : SlotTypes := fun n => types[n]?

/-- A call with arguments of the types of the parameters fills their slots. -/
theorem Slots.Conform.ofArguments {params : List Param} {args : List Value}
    (hslots : params.map (·.slot) = List.range params.length)
    (hargs : cat.conformAll args (params.map (·.ty))) (n : Nat) :
    (Slots.ofArguments n params args).Conform cat (.ofTypes (params.map (·.ty))) := by
  have hall := Catalog.conformAll_iff.mp hargs
  have hlength : args.length = params.length := by rw [hall.length_eq, List.length_map]
  intro m t hm
  obtain ⟨hlt, rfl⟩ := List.getElem?_eq_some_iff.mp hm
  have hm : m < args.length := by rwa [hall.length_eq]
  refine ⟨args[m], ?_, hall.get hm hlt⟩
  rw [getElem?_ofArguments hslots hlength n hm, List.getElem?_eq_getElem hm]

/-- An expression that is derived in a scope that is sound in the slots of its parameters is safe. -/
theorem Lambda.safe_of_derives (hcat : cat.WellBehaved) {l : Lambda} {scope : Scope} {body : Expr} {result : Option Ty}
    (hslots : l.params.map (·.slot) = List.range l.params.length)
    (hscope : scope.Sound cat (.ofTypes (l.params.map (·.ty))))
    (hderives : Derives scope l.params.length l.slots [body]) (hresult : Typing.result cat body result = .ok l.body) :
    l.Safe cat := by
  have hbody : Typed cat (.ofTypes (l.params.map (·.ty))) body := by
    refine hderives.typed hcat hscope ?_ body List.mem_cons_self
    intro n hn
    exact List.getElem?_eq_none (by rwa [List.length_map])
  have htyped := typed_result hcat.layered hresult hbody
  intro row hrow
  have hlength : row.length = l.params.length := by
    rw [(Catalog.conformAll_iff.mp hrow).length_eq, Lambda.paramTypes, List.length_map]
  rw [Catalog.evalLambda, if_pos hlength]
  exact htyped.yields (Slots.Conform.ofArguments hslots hrow l.slots)

namespace Environment

variable {env : Environment} {types : List Ty}

/-- The scope of a text is sound in the slots of its parameters if its arguments are. -/
theorem scope_sound (hcontext : env.context = Context.ofTypes types) {params : List Param}
    (hslots : params.map (·.slot) = List.range params.length) {args : List Argument} {symbols : Symbols}
    (hsymbols : Symbols.ofText params args = .ok symbols)
    (hargs : ∀ arg ∈ args, ∀ sym ∈ arg.symbols, sym.Sound env.catalog fun _ => none) :
    (env.scope params symbols).Sound env.catalog (.ofTypes (params.map (·.ty))) := by
  have hparam : ∀ p ∈ params, SlotTypes.ofTypes (params.map (·.ty)) p.slot = some p.ty := by
    intro p hp
    obtain ⟨i, hi, rfl⟩ := List.mem_iff_getElem.mp hp
    have hslot : (params.map (·.slot))[i]? = some i := by
      rw [hslots]
      simp [hi]
    have hi' : params[i].slot = i := by simpa [hi] using hslot
    simp [SlotTypes.ofTypes, hi', hi]
  refine ⟨rfl, fun ty hty => hty.isCastTarget hcontext, ?_, ?_⟩
  · intro e he
    simp only [scope, implicit?] at he
    split at he
    · cases he
      exact ⟨_, _, rfl, hparam _ List.mem_cons_self⟩
    · cases he
  · intro name sym hsym
    refine Symbols.forall_ofText (P := fun sym => sym.Sound env.catalog _) hsymbols ?_ ?_ _
      (mem_of_lookup hsym)
    · exact fun p hp => Or.inl ⟨p.ty, p.slot, rfl, hparam p hp⟩
    · intro arg harg sym hsym
      refine (hargs arg harg sym hsym).mono ?_
      intro _ _ h
      cases h

/-- A text with sound arguments compiles to a safe expression. -/
theorem Compiles.safe (hcat : env.catalog.WellBehaved) (hcontext : env.context = Context.ofTypes types)
    {params : List ParamDecl} {result : Option Ty} {text : String} {args : List Argument} {l : Lambda}
    (h : env.Compiles params result text args l)
    (hargs : ∀ arg ∈ args, ∀ sym ∈ arg.symbols, sym.Sound env.catalog fun _ => none) :
    l.Safe env.catalog := by
  obtain ⟨hparams, symbols, body, hsymbols, hderives, hresult⟩ := h.derives
  have hslots : l.params.map (·.slot) = List.range l.params.length := by
    rw [hparams]
    exact bindParams_slots params
  exact Lambda.safe_of_derives hcat hslots (scope_sound hcontext hslots hsymbols hargs) hderives hresult

end Environment

/-- The arguments that a host may supply: values of their types, and expressions that were compiled with
such arguments. -/
inductive Argument.Admissible (cat : Catalog) : Argument → Prop
  | value {v : Value} (h : cat.conforms v v.naturalType) : Admissible cat (.value v)
  | typed {v : Value} {ty : Ty} (h : cat.conforms v ty) : Admissible cat (.typed v ty)
  | lambda {types : List Ty} {params : List ParamDecl} {result : Option Ty} {text : String}
      {args : List Argument} {l : Lambda} (hargs : ∀ arg ∈ args, Admissible cat arg)
      (h : (⟨cat, .ofTypes types⟩ : Environment).Compiles params result text args l) :
      Admissible cat (.lambda l)
  | named {values : List (String × Value)} (h : ∀ x ∈ values, cat.conforms x.2 x.2.naturalType) :
      Admissible cat (.named values)

theorem Argument.Admissible.sound (hcat : cat.WellBehaved) {arg : Argument} (h : arg.Admissible cat) :
    ∀ sym ∈ arg.symbols, sym.Sound cat fun _ => none := by
  induction h with
  | value h => exact List.forall_mem_singleton.mpr (Or.inr ⟨_, _, rfl, h⟩)
  | typed h => exact List.forall_mem_singleton.mpr (Or.inr ⟨_, _, rfl, h⟩)
  | lambda _ h ih => exact List.forall_mem_singleton.mpr (h.safe hcat rfl ih)
  | named h =>
      intro sym hsym
      obtain ⟨x, hx, rfl⟩ := List.mem_map.mp hsym
      exact Or.inr ⟨_, _, rfl, h x hx⟩

/-- A catalog with one class, of objects that hold one number. -/
def Catalog.cells : Catalog := ⟨[⟨"Cell", none, [("X", .int32)], [], [], [], [], none⟩]⟩

def Class.cell : Class := .declared 0 "Cell"

def Environment.cells : Environment := ⟨.cells, .ofTypes [.cls .cell]⟩

end RowQuery
