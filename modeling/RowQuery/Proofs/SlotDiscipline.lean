import RowQuery.Proofs.Compilation
import RowQuery.Proofs.OperandForms
import RowQuery.Proofs.Slots

/-!
How compiled expressions use their slots. Parameters have the first slots; every aggregate has a slot that
nothing else has; and a slot is read only for a parameter or inside the aggregate that binds it. So what a
compiled expression evaluates to does not depend on what the slots other than those of its parameters hold.

No typing rule drops, doubles or makes up a subexpression that has slots. This is one fact about whatever
is gathered from an expression, and the statements about parameters and aggregates are cases of it.
-/

namespace RowQuery

variable {cat : Catalog} {p : Nat → List Nat} {a : Nat → List Nat → List Nat → List Nat}

/-! ### Typing rules -/

theorem Taken.gather_eq {e e' : Expr} (h : Taken e e') : e'.gather p a = e.gather p a := by
  cases h with
  | same => rfl
  | value _ _ => rfl

theorem Adapted.gather_eq {e e' : Expr} (h : Adapted e e') : e'.gather p a = e.gather p a := by
  cases h with
  | plain h => exact h.gather_eq
  | converted h _ _ => exact h.gather_eq

theorem PromotesAll.gather_eq {es es' : List Expr} {ts : List Ty} (h : PromotesAll cat es ts es') :
    es'.flatMap (Expr.gather p a) = es.flatMap (Expr.gather p a) := by
  induction h with
  | nil => rfl
  | cons head _ ih => rw [List.flatMap_cons, List.flatMap_cons, head.adapted.gather_eq, ih]

namespace Typing

variable (p a) {e : Expr}

/-- The body of an aggregate is its argument, if it has one. -/
theorem gather_aggregate {source : Expr} {n : Nat} {name : String} {args : List Expr}
    (h : Typing.aggregate cat source n name args = .ok e) :
    e.gather p a = a n (source.gather p a) (args.flatMap (Expr.gather p a)) := by
  obtain ⟨op, params, promoted, body, hmem, hpromotes, rfl, rfl⟩ := aggregate_ok h
  have hlengths : ∀ x ∈ Signatures.aggregates, x.2.length ≤ 1 := by decide
  have hlength := hlengths _ (List.mem_filter.mp hmem).1
  rw [Expr.gather, Expr.gatherOption_eq]
  rcases params with _ | ⟨t, _ | ⟨u, params⟩⟩
  · cases hpromotes
    simp
  · obtain ⟨arg, arg', rfl, rfl, harg⟩ := hpromotes.singleton
    split
    · simp
    · simp [harg.adapted.gather_eq]
  · simp at hlength

end Typing

/-- What is gathered from an expression is what is gathered from its parts. -/
theorem Rule.gather_eq {scope : Scope} {es : List Expr} {e : Expr} (h : Rule scope es e) :
    e.gather p a = es.flatMap (Expr.gather p a) := by
  have hbinary : ∀ {signatures : List (List Ty)} {symbol : String} {t : Ty} {op : BinaryOp} {l r l' r' : Expr},
      Typing.operands scope.catalog signatures symbol l r = .ok (l', r') →
        (Expr.binary t op l' r').gather p a = [l, r].flatMap (Expr.gather p a) := by
    intro signatures symbol t op l r l' r' h
    obtain ⟨hl, hr⟩ := Typing.operands_adapted h
    simp [Expr.gather, hl.gather_eq, hr.gather_eq]
  have harithmetic : ∀ {signatures : List (List Ty)} {op : BinaryOp} {symbol : String} {l r e : Expr},
      Typing.arithmetic scope.catalog signatures op symbol l r = .ok e →
        e.gather p a = [l, r].flatMap (Expr.gather p a) := by
    intro signatures op symbol l r e h
    obtain ⟨l', r', hoperands, rfl⟩ := Typing.arithmetic_ok h
    exact hbinary hoperands
  have hconcatenation : ∀ l r : Expr,
      (Typing.concatenation l r).gather p a = [l, r].flatMap (Expr.gather p a) := by
    intro l r
    rw [Typing.concatenation, Expr.gather, Expr.gatherAll_eq]
    rfl
  cases h with
  | logical _ h =>
      obtain ⟨l', r', hoperands, rfl⟩ := Typing.logical_ok h
      exact hbinary hoperands
  | comparison _ h =>
      obtain ⟨l', r', hcomparable, heq⟩ := Typing.comparison_ok h
      obtain ⟨hl, hr⟩ := Typing.comparable_adapted hcomparable
      rcases heq with rfl | ⟨-, rfl⟩
      · simp [Expr.gather, hl.gather_eq, hr.gather_eq]
      · simp [Expr.gather, Expr.gatherAll, Expr.gatherOption, hl.gather_eq, hr.gather_eq]
  | product _ h => exact harithmetic h
  | difference h => exact harithmetic h
  | sum h =>
      rcases Typing.sum_ok h with rfl | h
      · exact hconcatenation _ _
      · exact harithmetic h
  | concatenation => exact hconcatenation _ _
  | unary h =>
      obtain ⟨t, e', -, hpromotes, rfl⟩ := Typing.unary_ok h
      simp [Expr.gather, hpromotes.adapted.gather_eq]
  | conditional h =>
      obtain ⟨-, y, n, hunified, rfl⟩ := Typing.conditional_ok h
      obtain ⟨hy, hn⟩ := hunified.adapted
      simp [Expr.gather, hy.gather_eq, hn.gather_eq]
  | construction _ h =>
      rcases Typing.construction_ok h with ⟨ctor, -, promoted, hpromotes, rfl⟩ | ⟨operand, rfl, hconversion⟩
      · rw [Expr.gather, Expr.gatherAll_eq, hpromotes.gather_eq]
      · rw [(Typing.conversion_adapted hconversion).gather_eq, List.flatMap_singleton]
  | property h =>
      obtain ⟨p, -, rfl⟩ := Typing.property_ok h
      rw [Expr.gather, Expr.gatherOption_eq]
  | methodCall h =>
      obtain ⟨_, -, m, -, promoted, hpromotes, rfl⟩ := Typing.methodCall_ok h
      rw [Expr.gather, Expr.gatherOption_eq, Expr.gatherAll_eq, hpromotes.gather_eq, List.flatMap_append]
  | element h =>
      rcases Typing.element_ok h with
        ⟨item, position, i, -, rfl, hpromotes, rfl⟩ | ⟨_, -, m, -, promoted, hpromotes, rfl⟩
      · simp [Expr.gather, hpromotes.adapted.gather_eq]
      · rw [Expr.gather, Expr.gatherOption, Expr.gatherAll_eq, hpromotes.gather_eq, List.flatMap_cons]
  | invocation _ h =>
      obtain ⟨promoted, hpromotes, rfl⟩ := Typing.invocation_ok h
      rw [Expr.gather, Expr.gatherAll_eq, hpromotes.gather_eq]
  | projection => rw [Typing.projection, Expr.gather, Expr.gatherAll_eq]

/-! ### Derived expressions -/

/-- A scope in which names stand for constants and for parameters in visible slots. -/
structure Scope.Sees (V : Nat → Prop) (scope : Scope) : Prop where
  implicit : ∀ e, scope.it = some e → ∃ t n, e = .param t n ∧ V n
  symbols : ∀ name e, scope.symbols.lookup name = some (.expr e) →
    (∃ t n, e = .param t n ∧ V n) ∨ ∃ t v, e = .constant t v

theorem Leaf.param_or_closed {V : Nat → Prop} {scope : Scope} (hscope : scope.Sees V) {e : Expr}
    (h : Leaf scope e) :
    (∃ t n, e = .param t n ∧ V n) ∨ (∃ t v, e = .constant t v) ∨ ∃ t v text, e = .literal t v text := by
  cases h with
  | quoted h => exact Or.inr (Or.inr (Grammar.exists_literal_of_quoted h))
  | integer h => exact Or.inr (Or.inr (Grammar.exists_literal_of_integer h))
  | real h => exact Or.inr (Or.inr (Grammar.exists_literal_of_real h))
  | truth b => exact Or.inr (Or.inl ⟨_, _, rfl⟩)
  | null => exact Or.inr (Or.inr ⟨_, _, _, rfl⟩)
  | implicit h => exact Or.inl (hscope.implicit e h)
  | symbol h => exact (hscope.symbols _ e h).imp_right Or.inl

/-- How expressions use slots if the visible ones are given and those from `lo` up to `hi` were free. -/
structure SlotUse (V : Nat → Prop) (lo hi : Nat) (es : List Expr) : Prop where
  increasing : (es.flatMap Expr.binders).Pairwise (· < ·)
  binders : ∀ n ∈ es.flatMap Expr.binders, lo ≤ n ∧ n < hi
  free : ∀ n ∈ es.flatMap Expr.free, V n
  reads : ∀ n ∈ es.flatMap Expr.reads, V n ∨ lo ≤ n ∧ n < hi

namespace SlotUse

variable {V : Nat → Prop} {lo mid hi : Nat}

theorem nil : SlotUse V lo lo [] := ⟨.nil, by simp, by simp, by simp⟩

theorem leaf {scope : Scope} (hscope : scope.Sees V) {e : Expr} (h : Leaf scope e) :
    SlotUse V lo lo [e] := by
  rcases h.param_or_closed hscope with ⟨t, n, rfl, hn⟩ | ⟨t, v, rfl⟩ | ⟨t, v, text, rfl⟩
  · refine ⟨?_, ?_, ?_, ?_⟩ <;> simp [Expr.binders, Expr.free, Expr.reads, Expr.gather, hn]
  · refine ⟨?_, ?_, ?_, ?_⟩ <;> simp [Expr.binders, Expr.free, Expr.reads, Expr.gather]
  · refine ⟨?_, ?_, ?_, ?_⟩ <;> simp [Expr.binders, Expr.free, Expr.reads, Expr.gather]

theorem cons {e : Expr} {es : List Expr} (hle : lo ≤ mid ∧ mid ≤ hi) (head : SlotUse V lo mid [e])
    (tail : SlotUse V mid hi es) : SlotUse V lo hi (e :: es) := by
  have hcons : ∀ f : Expr → List Nat, (e :: es).flatMap f = [e].flatMap f ++ es.flatMap f := by simp
  refine ⟨?_, ?_, ?_, ?_⟩
  · rw [hcons, List.pairwise_append]
    refine ⟨head.increasing, tail.increasing, fun m hm n hn => ?_⟩
    have hlt := (head.binders m hm).2
    have hge := (tail.binders n hn).1
    omega
  · rw [hcons, List.forall_mem_append]
    refine ⟨fun n hn => ?_, fun n hn => ?_⟩
    · have := head.binders n hn
      omega
    · have := tail.binders n hn
      omega
  · rw [hcons, List.forall_mem_append]
    exact ⟨head.free, tail.free⟩
  · rw [hcons, List.forall_mem_append]
    refine ⟨fun n hn => ?_, fun n hn => ?_⟩
    · exact (head.reads n hn).imp_right fun h => by omega
    · exact (tail.reads n hn).imp_right fun h => by omega

theorem of_gather {es : List Expr} {e : Expr}
    (h : ∀ p a, e.gather p a = es.flatMap (Expr.gather p a)) (parts : SlotUse V lo hi es) :
    SlotUse V lo hi [e] := by
  have hgather : ∀ {p a}, [e].flatMap (Expr.gather p a) = es.flatMap (Expr.gather p a) := by
    intro p a
    rw [List.flatMap_singleton, h]
  exact ⟨hgather ▸ parts.increasing, hgather ▸ parts.binders, hgather ▸ parts.free, hgather ▸ parts.reads⟩

/-- The slot of an aggregate comes after those in its source and before those in its body, where it is
visible. -/
theorem aggregate {source e : Expr} {name : String} {args : List Expr} (hle : lo ≤ mid ∧ mid < hi)
    (hsource : SlotUse V lo mid [source])
    (hargs : SlotUse (fun n => V n ∨ n = mid) (mid + 1) hi args)
    (h : Typing.aggregate cat source mid name args = .ok e) : SlotUse V lo hi [e] := by
  obtain ⟨hincreasing, hbinders, hfree, hreads⟩ := hsource
  simp only [List.flatMap_singleton] at hincreasing hbinders hfree hreads
  refine ⟨?_, ?_, ?_, ?_⟩
  · rw [List.flatMap_singleton, Expr.binders, Typing.gather_aggregate _ _ h, List.pairwise_append,
      List.pairwise_cons]
    refine ⟨hincreasing, ⟨fun n hn => (hargs.binders n hn).1, hargs.increasing⟩, fun m hm n hn => ?_⟩
    have hlt := (hbinders m hm).2
    rcases List.mem_cons.mp hn with rfl | hn
    · exact hlt
    · have hge := (hargs.binders n hn).1
      omega
  · rw [List.flatMap_singleton, Expr.binders, Typing.gather_aggregate _ _ h, List.forall_mem_append,
      List.forall_mem_cons]
    refine ⟨fun n hn => ?_, hle, fun n hn => ?_⟩
    · have := hbinders n hn
      omega
    · have := hargs.binders n hn
      omega
  · rw [List.flatMap_singleton, Expr.free, Typing.gather_aggregate _ _ h, List.forall_mem_append]
    refine ⟨hfree, fun n hn => ?_⟩
    obtain ⟨hn, hne⟩ := List.mem_filter.mp hn
    exact (hargs.free n hn).resolve_right (of_decide_eq_true hne)
  · rw [List.flatMap_singleton, Expr.reads, Typing.gather_aggregate _ _ h, List.forall_mem_append]
    refine ⟨fun n hn => (hreads n hn).imp_right fun h => by omega, fun n hn => ?_⟩
    rcases hargs.reads n hn with (hn | rfl) | hn
    · exact Or.inl hn
    · exact Or.inr hle
    · exact Or.inr (by omega)

theorem of_mem {es : List Expr} (h : SlotUse V lo hi es) {e : Expr} (he : e ∈ es) : SlotUse V lo hi [e] := by
  have hsub : ∀ f : Expr → List Nat, ([e].flatMap f).Sublist (es.flatMap f) := by
    intro f
    rw [List.flatMap_singleton, List.flatMap_def]
    exact List.sublist_flatten_of_mem (List.mem_map_of_mem he)
  exact ⟨h.increasing.sublist (hsub _), fun n hn => h.binders n ((hsub _).subset hn),
    fun n hn => h.free n ((hsub _).subset hn), fun n hn => h.reads n ((hsub _).subset hn)⟩

end SlotUse

theorem Derives.slotUse {V : Nat → Prop} {scope : Scope} {lo hi : Nat} {es : List Expr}
    (h : Derives scope lo hi es) (hscope : scope.Sees V) : SlotUse V lo hi es := by
  induction h generalizing V with
  | nil => exact .nil
  | cons head tail ihhead ihtail => exact .cons ⟨head.le, tail.le⟩ (ihhead hscope) (ihtail hscope)
  | leaf h => exact .leaf hscope h
  | rule _ h ih => exact .of_gather (fun _ _ => h.gather_eq) (ih hscope)
  | @aggregate scope lo mid hi source e name item args hsource _ hargs h ihsource ihargs =>
      have hinner : ({ scope with it := some (.param item mid) } : Scope).Sees fun n => V n ∨ n = mid := by
        refine ⟨fun e he => ?_, fun name e he => ?_⟩
        · cases he
          exact ⟨item, mid, rfl, Or.inr rfl⟩
        · exact (hscope.symbols name e he).imp_left fun ⟨t, n, heq, hn⟩ => ⟨t, n, heq, Or.inl hn⟩
      exact .aggregate ⟨hsource.le, hargs.le⟩ (ihsource hscope) (ihargs hinner) h

/-! ### Compiled expressions -/

/-- How a compiled expression uses its slots. -/
structure Lambda.Disciplined (l : Lambda) : Prop where
  /-- The parameters have the first slots, in order. -/
  params : l.params.map (·.slot) = List.range l.params.length
  /-- No two aggregates share a slot, and none has the slot of a parameter. -/
  binders : (List.range l.params.length ++ l.body.binders).Nodup
  /-- Every slot that is read is provided for. -/
  reads : ∀ n ∈ l.body.reads, n < l.slots
  /-- Outside of the aggregate that binds it, a slot is read only for a parameter. -/
  free : ∀ n ∈ l.body.free, n < l.params.length

namespace Lambda

theorem Disciplined.of_slotUse {l : Lambda} (hparams : l.params.map (·.slot) = List.range l.params.length)
    (hle : l.params.length ≤ l.slots)
    (h : SlotUse (· < l.params.length) l.params.length l.slots [l.body]) : l.Disciplined := by
  obtain ⟨hincreasing, hbinders, hfree, hreads⟩ := h
  simp only [List.flatMap_singleton] at hincreasing hbinders hfree hreads
  refine ⟨hparams, ?_, fun n hn => ?_, hfree⟩
  · rw [List.nodup_append]
    refine ⟨List.nodup_range, hincreasing.imp Nat.ne_of_lt, fun m hm n hn => ?_⟩
    have hlt := List.mem_range.mp hm
    have hge := (hbinders n hn).1
    omega
  · have := hreads n hn
    omega

/-- Only the slots of the parameters matter for the value of a body. -/
theorem Disciplined.exec_body (cat : Catalog) {l : Lambda} (h : l.Disciplined) {s t : Slots}
    (hst : ∀ n, n < l.params.length → ∃ v, s[n]? = some v ∧ t[n]? = some v) :
    (Eval.exec (cat.eval l.body) s).1 = (Eval.exec (cat.eval l.body) t).1 := by
  have halike := cat.alike_eval Function.injective_id l.body h.free
  rw [Expr.mapSlots_id] at halike
  exact (halike s t hst).1.eq

/-- A body whose slots were renamed apart evaluates as the expression does where the new slots of the parameters hold
the arguments, and leaves the first slots as they are if none of them is bound. -/
theorem Disciplined.exec_moved (cat : Catalog) {l : Lambda} (h : l.Disciplined) {f : Nat → Nat}
    (hf : Function.Injective f) {row first : List Value} (hrow : row.length = l.params.length) {t : Slots}
    (hargs : ∀ i, i < row.length → t[f i]? = row[i]?) (ht : t.StartWith first)
    (hbinders : ∀ n ∈ l.body.binders, first.length ≤ f n) :
    (Eval.exec (cat.eval (l.body.mapSlots f)) t).1 = cat.evalLambda l row ∧
      (Eval.exec (cat.eval (l.body.mapSlots f)) t).2.StartWith first := by
  have hagree : (Slots.ofArguments l.slots l.params row).Agree f (· < l.params.length) t := by
    intro n hn
    have hlt : n < row.length := by omega
    have hvalue : row[n]? = some row[n] := List.getElem?_eq_getElem hlt
    refine ⟨row[n], ?_, ?_⟩
    · rw [Slots.getElem?_ofArguments h.params hrow l.slots hlt, hvalue]
    · rw [hargs n hlt, hvalue]
  obtain ⟨hmatch, -, hstart⟩ :=
    cat.tied_eval (Slots.tied_startWith hf first) l.body h.free hbinders _ t ⟨hagree, ht⟩
  refine ⟨?_, hstart⟩
  rw [Catalog.evalLambda, if_pos hrow]
  exact hmatch.eq.symm

/-- No aggregate has the slot of a parameter. -/
theorem Disciplined.le_binders {l : Lambda} (h : l.Disciplined) : ∀ n ∈ l.body.binders, l.params.length ≤ n := by
  intro n hn
  by_contra hlt
  exact (List.nodup_append.mp h.binders).2.2 n (List.mem_range.mpr (by omega)) n hn rfl

/-- In any slots that start with the arguments, a body whose other slots were renamed apart evaluates as the
expression does, and leaves the arguments in place. -/
theorem Disciplined.exec_renamed (cat : Catalog) {l : Lambda} (h : l.Disciplined) {f : Nat → Nat}
    (hf : Function.Injective f) (hfix : ∀ n, n < l.params.length → f n = n) {row : List Value}
    (hrow : row.length = l.params.length) {t : Slots} (ht : t.StartWith row) :
    (Eval.exec (cat.eval (l.body.mapSlots f)) t).1 = cat.evalLambda l row ∧
      (Eval.exec (cat.eval (l.body.mapSlots f)) t).2.StartWith row := by
  refine h.exec_moved cat hf hrow (fun i hi => ?_) ht fun n hn => ?_
  · rw [hfix i (by omega), ht i hi]
  · by_contra hlt
    have hfixed : f (f n) = f n := hfix (f n) (by omega)
    have hle := h.le_binders n hn
    rw [← hf hfixed] at hle
    omega

end Lambda

namespace Environment

variable {env : Environment} {args : List Argument} {text : String}

theorem scope_sees {params : List Param} (hslots : params.map (·.slot) = List.range params.length)
    {symbols : Symbols} (hsymbols : Symbols.ofText params args = .ok symbols) :
    (env.scope params symbols).Sees (· < params.length) := by
  have hparam : ∀ p ∈ params, p.slot < params.length := by
    intro p hp
    rw [← List.mem_range, ← hslots]
    exact List.mem_map_of_mem hp
  refine ⟨fun e he => ?_, fun name e he => ?_⟩
  · simp only [scope, implicit?] at he
    split at he
    · cases he
      exact ⟨_, _, rfl, hparam _ List.mem_cons_self⟩
    · cases he
  · refine Symbols.forall_ofText (P := fun sym => ∀ e, sym = .expr e →
      (∃ t n, e = .param t n ∧ n < params.length) ∨ ∃ t v, e = .constant t v) hsymbols ?_ ?_ _
      (mem_of_lookup he) e rfl
    · rintro p hp e ⟨⟩
      exact Or.inl ⟨p.ty, p.slot, rfl, hparam p hp⟩
    · rintro arg _ sym hsym e rfl
      exact Or.inr (Argument.exists_constant hsym)

theorem Compiles.disciplined {params : List ParamDecl} {result : Option Ty} {l : Lambda}
    (h : env.Compiles params result text args l) : l.Disciplined := by
  obtain ⟨hparams, symbols, body, hsymbols, hderives, hresult⟩ := h.derives
  have hslots : l.params.map (·.slot) = List.range l.params.length := by
    rw [hparams]
    exact bindParams_slots params
  refine .of_slotUse hslots hderives.le ((hderives.slotUse (scope_sees hslots hsymbols)).of_gather ?_)
  intro p a
  rw [List.flatMap_singleton, (Typing.result_adapted hresult).gather_eq]

theorem CompilesOrdering.disciplined {element : Ty} {keys : List SortKey}
    (h : env.CompilesOrdering element text args keys) : ∀ key ∈ keys, key.selector.Disciplined := by
  obtain ⟨symbols, slots, hsymbols, hderives, hkeys⟩ := h.derives
  intro key hkey
  obtain ⟨hparams, hslots⟩ := hkeys key hkey
  have huse := hderives.slotUse (scope_sees (bindParams_slots _) hsymbols)
  have hone := huse.of_mem (List.mem_map_of_mem hkey)
  refine .of_slotUse ?_ ?_ ?_
  · rw [hparams]
    exact bindParams_slots _
  · rw [hparams, hslots]
    exact hderives.le
  · rw [hparams, hslots]
    exact hone

end Environment

/-- A compiled expression and every key of a compiled ordering keeps parameters and aggregates in slots of
their own, and evaluates to the same in all slots that start with the arguments. -/
theorem compiled_slots (env : Environment) {l : Lambda} {text : String} {args : List Argument}
    (h : (∃ params result, env.Compiles params result text args l) ∨
      ∃ element keys, env.CompilesOrdering element text args keys ∧ ∃ key ∈ keys, key.selector = l) :
    l.Disciplined ∧ ∀ (row : List Value) (s : Slots), row.length = l.params.length →
      (∀ i, i < row.length → s[i]? = row[i]?) →
      (Eval.exec (env.catalog.eval l.body) s).1 = env.catalog.evalLambda l row := by
  have hdisciplined : l.Disciplined := by
    rcases h with ⟨params, result, hcompiles⟩ | ⟨element, keys, hcompiles, key, hkey, rfl⟩
    · exact hcompiles.disciplined
    · exact hcompiles.disciplined key hkey
  refine ⟨hdisciplined, fun row s hlength hs => ?_⟩
  rw [Catalog.evalLambda, if_pos hlength]
  refine hdisciplined.exec_body env.catalog fun n hn => ?_
  rw [← hlength] at hn
  refine ⟨row[n], ?_, ?_⟩
  · rw [hs n hn, List.getElem?_eq_getElem hn]
  · rw [Slots.getElem?_ofArguments hdisciplined.params hlength l.slots hn, List.getElem?_eq_getElem hn]

/-- Aggregates inside of each other and side by side have the slots from 1 to 4, and it does not matter what
an earlier evaluation has left there. -/
theorem compiled_slots_nested :
    let row : Value := .list [.list [.int32 1, .int32 2], .list [.int32 3]]
    ∃ l, (⟨.empty, .empty⟩ : Environment).Compiles [⟨none, .list (.list .int32)⟩] none
        "it.Any(it.Any(it > 1)) && it.All(it.Count() > 1)" [] l ∧ l.body.binders = [1, 2, 3, 4] ∧
      l.Disciplined ∧ ∀ dirty : List Value,
        (Eval.exec (Catalog.empty.eval l.body) (row :: dirty)).1 = Catalog.empty.evalLambda l [row] := by
  intro row
  have hrun : (((⟨.empty, .empty⟩ : Environment).compile [⟨none, .list (.list .int32)⟩] none
      "it.Any(it.Any(it > 1)) && it.All(it.Count() > 1)" []).exec .empty).1.toOption.any (fun l =>
        l.body.binders = [1, 2, 3, 4] ∧ l.params.length = 1) = true := by
    decide +kernel
  obtain ⟨l, hcompiles, hcheck⟩ := Environment.exists_compiles hrun
  obtain ⟨hbinders, hparams⟩ := of_decide_eq_true hcheck
  obtain ⟨hdisciplined, heval⟩ := compiled_slots _ (Or.inl ⟨_, _, hcompiles⟩)
  refine ⟨l, hcompiles, hbinders, hdisciplined, fun dirty => heval [row] (row :: dirty) hparams.symm ?_⟩
  intro i hi
  obtain rfl : i = 0 := by simpa using hi
  rfl

end RowQuery
