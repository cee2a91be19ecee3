import RowQuery.Proofs.FilterFusion
import RowQuery.Proofs.MemberPhrases
import RowQuery.Proofs.IntegerConversion

/-!
Conditions inside and outside of expressions. A text that compiles as a condition on rows also compiles as
the argument of an aggregate over the list of the rows, where each row is the item at hand. The aggregate
evaluates the condition in one run, with the slot of the item bound again for each row, and comes to what
evaluating it for each row by itself comes to.
-/

namespace RowQuery

open Parse Grammar Lexeme

/-! ### The text -/

/-- An aggregate over the implicit parameter. -/
def Query.aggregated (name p : String) : String := "it." ++ name ++ "(" ++ p ++ ")"

/-- The lexemes of an aggregate over the implicit parameter. -/
def Lexeme.aggregated (name : String) (ls : List Lexeme) : List Lexeme :=
  ⟨.identifier, "it"⟩ :: dot :: ⟨.identifier, name⟩ :: openParen :: (ls ++ [closeParen])

theorem Scans.aggregated {name p : String} {ls : List Lexeme} (hname : Lexeme.Whole ⟨.identifier, name⟩)
    (h : Scans p.toList ls) : Scans (Query.aggregated name p).toList (Lexeme.aggregated name ls) := by
  have hall := (h.call hname).implicit_member
  simpa [Query.aggregated, Lexeme.aggregated] using hall

/-! ### Compilation -/

theorem AggregateOp.unmarked_name (op : AggregateOp) : unmarked op.name = op.name := by
  cases op <;> decide

theorem AggregateOp.whole_name (op : AggregateOp) : Lexeme.Whole ⟨.identifier, op.name⟩ := by
  cases op <;> exact ⟨_, _, rfl, by decide, rfl⟩

/-- The aggregates that may be given a condition. -/
def AggregateOp.conditional : List AggregateOp := [.filter, .any, .all, .count]

/-- A list has no methods. -/
theorem Typing.aggregated?_list (cat : Catalog) {e : Expr} {element : Ty} (hty : e.ty = .list element)
    (name : String) : (Receiver.value e).aggregated? cat name = some element := by
  rw [Receiver.aggregated?, hty]
  rfl

/-- The only applicable candidate is the best one. -/
theorem Overload.resolve_of_applicable {cat : Catalog} {candidates : List (List Ty)} {args : List Expr}
    {one : Applicable} (h : applicable cat candidates args = [one]) : resolve cat candidates args = .found one := by
  simp [resolve, winners, h]

theorem Typing.aggregate_condition (cat : Catalog) {op : AggregateOp} (hop : op ∈ AggregateOp.conditional)
    (source : Expr) (slot : Nat) {e : Expr} (he : e.ty = .boolean) :
    Typing.aggregate cat source slot op.name [e] =
      .ok (.aggregate (aggregateType cat op source.ty (some .boolean)) op slot source (some e)) := by
  have hpromote : cat.promote? e .boolean false = some e := by simp [Catalog.promote?, he]
  have hpromoted : Overload.promoteAll? cat [e] [.boolean] = some [e] := by
    simp [Overload.promoteAll?, hpromote]
  have hnone : Overload.promoteAll? cat [e] [] = none := rfl
  have hone : Overload.resolve cat [[.boolean]] [e] = .found ⟨0, [.boolean], [e]⟩ :=
    Overload.resolve_of_applicable (by simp [Overload.applicable, List.zipIdx, hpromoted])
  have htwo : Overload.resolve cat [[], [.boolean]] [e] = .found ⟨1, [.boolean], [e]⟩ :=
    Overload.resolve_of_applicable (by simp [Overload.applicable, List.zipIdx, hpromoted, hnone])
  have hfilter : Signatures.aggregatesNamed AggregateOp.filter.name = [(.filter, [.boolean])] := by decide
  have hany : Signatures.aggregatesNamed AggregateOp.any.name = [(.any, []), (.any, [.boolean])] := by decide
  have hall : Signatures.aggregatesNamed AggregateOp.all.name = [(.all, [.boolean])] := by decide
  have hcount : Signatures.aggregatesNamed AggregateOp.count.name = [(.count, []), (.count, [.boolean])] := by
    decide
  simp only [AggregateOp.conditional, List.mem_cons, List.not_mem_nil, or_false] at hop
  rcases hop with rfl | rfl | rfl | rfl
  · simp [aggregate, Overload.choose, hfilter, hone, he]
  · simp [aggregate, Overload.choose, hany, htwo, he]
  · simp [aggregate, Overload.choose, hall, hone, he]
  · simp [aggregate, Overload.choose, hcount, htwo, he]

/-- Arguments have no slots. -/
theorem Environment.scope_keeps {env : Environment} {ty : Ty} {args : List Argument} {symbols : Symbols}
    (h : Symbols.ofText (bindParams [⟨none, ty⟩]) args = .ok symbols) (base shift : Nat) :
    (env.scope (bindParams [⟨none, ty⟩]) symbols).Keeps base shift := by
  have h : Symbols.insertArguments [] 0 args = .ok symbols := h
  intro name e he
  refine Symbols.forall_insertArguments (P := fun sym => ∀ e, sym = .expr e →
    e.mapSlots (raise base shift) = e) h (by simp) ?_ _ (mem_of_lookup he) e rfl
  rintro arg _ sym hsym e rfl
  obtain ⟨ty, v, rfl⟩ := Argument.exists_constant hsym
  rfl

/-- An aggregate over a list of rows. The first slot is that of the list, so the slots of the condition are moved
up by one. -/
def Lambda.aggregated (element ty : Ty) (op : AggregateOp) (l : Lambda) (slots : Nat) : Lambda :=
  ⟨Environment.bindParams [⟨none, .list element⟩],
    .aggregate ty op 1 (.param (.list element) 0) (some (l.body.mapSlots (raise 0 1))), slots⟩

/-- An expression of rows, with room for one more level of nesting, is the argument of an aggregate over a list of
rows, if it is of a type that the aggregate takes. -/
theorem Environment.CompilesWithin.aggregate {env : Environment} {element ty : Ty} {p : String}
    {args : List Argument} {l : Lambda} {op : AggregateOp}
    (h : env.CompilesWithin (maxDepth - 1) [⟨none, element⟩] none p args l)
    (htyped : Typing.aggregate env.catalog (.param (.list element) 0) 1 op.name [l.body.mapSlots (raise 0 1)] =
      .ok (l.aggregated element ty op (l.slots + 1)).body) :
    env.Compiles [⟨none, .list element⟩] none (Query.aggregated op.name p) args
      (l.aggregated element ty op (l.slots + 1)) := by
  obtain ⟨made, h⟩ := h
  obtain ⟨hparams, body, htext, hresult⟩ := Environment.compileWithin_eq_ok.mp h
  cases hresult
  rw [hparams] at htext
  obtain ⟨symbols, hsymbols, htext⟩ := htext
  have htext : ReadsWhole (env.scope (bindParams [⟨none, element⟩]) symbols) 1 p
      (Reads (reader (level (maxDepth - 2)) 0)) made l.body l.slots := htext
  obtain ⟨ls, grow, hscans, hembeds⟩ := htext.embeds Expr.mapSlots_id (reader_portable (Nat.le_refl _) 0)
    (reader_portable (Nat.le_refl _) 0) (.nil 0)
  have hsymbols' : Symbols.ofText (bindParams [⟨none, .list element⟩]) args = .ok symbols := hsymbols
  have hargument : Takes (level (maxDepth - 1)).expression
      { env.scope (bindParams [⟨none, .list element⟩]) symbols with it := some (.param element 1) }
      (1 + 1, .empty) ls (l.body.mapSlots (raise 0 1)) (l.slots + 1, grow .empty) [closeParen] := by
    intro t ht hmade
    obtain ⟨hslots, hshapes⟩ := Prod.mk.inj hmade
    have hshift : t.slots - 1 = 1 := by rw [hslots]
    obtain ⟨t', hread, hahead, hslots', hshapes'⟩ := hembeds (Nat.zero_le _) (scope_keeps hsymbols _ _) ht
      (by omega) (.of_first (show .closeParen ∈ ends by decide)) (.of_first (Or.inl rfl))
    rw [hshift] at hread hslots'
    exact ⟨t', hread, hahead, Prod.ext hslots' (by rw [← hshapes]; exact hshapes')⟩
  rw [← AggregateOp.unmarked_name op] at htyped
  have hlist : (Expr.param (.list element) 0).ty = .list element := rfl
  have hmember := takes_aggregate (Typing.aggregated?_list env.catalog hlist _) hargument htyped
  exact compiles_of_takes hsymbols' (hscans.aggregated op.whole_name)
    (takes_implicit_member rfl hmember (.nil 0)) (by simp)

/-- A condition on rows is the argument of an aggregate that may be given one. -/
theorem Environment.CompilesWithin.aggregated {env : Environment} {element : Ty} {p : String}
    {args : List Argument} {l : Lambda} {op : AggregateOp} (hop : op ∈ AggregateOp.conditional)
    (h : env.CompilesWithin (maxDepth - 1) [⟨none, element⟩] (some .boolean) p args l) :
    ∃ ty slots, env.Compiles [⟨none, .list element⟩] none (Query.aggregated op.name p) args
      (l.aggregated element ty op slots) := by
  obtain ⟨hnone, hty⟩ := h.condition
  have htyped := Typing.aggregate_condition env.catalog hop (.param (.list element) 0) 1
    (show (l.body.mapSlots (raise 0 1)).ty = .boolean by rw [Expr.ty_substitute, hty])
  exact ⟨_, _, hnone.aggregate htyped⟩

/-! ### Evaluation -/

namespace Eval

variable {α β : Type} {I : Slots → Prop}

/-- In all slots as asked, a computation comes to the same result and leaves such slots. -/
def Answers (I : Slots → Prop) (p : Eval α) (r : Except EvalError α) : Prop :=
  ∀ s, I s → (exec p s).1 = r ∧ I (exec p s).2

namespace Answers

theorem pure (a : α) : Answers I (Pure.pure a) (.ok a) := fun _ hs => ⟨rfl, hs⟩

theorem rule (r : Except EvalError α) : Answers I (Aggregate.rule r) r := by
  intro s hs
  cases r <;> exact ⟨rfl, hs⟩

theorem bind {p : Eval α} {r : Except EvalError α} {f : α → Eval β} {g : α → Except EvalError β}
    (hp : Answers I p r) (hf : ∀ a, r = .ok a → Answers I (f a) (g a)) : Answers I (p >>= f) (r >>= g) := by
  intro s hs
  rw [exec_bind]
  obtain ⟨hresult, hleft⟩ := hp s hs
  rcases hrun : exec p s with ⟨e | a, s'⟩
  · rw [hrun] at hresult hleft
    rw [← hresult]
    exact ⟨rfl, hleft⟩
  · rw [hrun] at hresult hleft
    rw [← hresult]
    exact hf a hresult.symm s' hleft

variable {p : α → Eval Bool} {q : α → Except EvalError Bool} {as : List α} (h : ∀ a ∈ as, Answers I (p a) (q a))

include h

theorem filterAuxM (acc : List α) : Answers I (as.filterAuxM p acc) (as.filterAuxM q acc) := by
  induction as generalizing acc with
  | nil => exact pure acc
  | cons a as ih =>
      obtain ⟨ha, has⟩ := List.forall_mem_cons.mp h
      exact ha.bind fun b _ => ih has _

/-- A filter in one run keeps what the conditions by themselves keep. -/
theorem filterM : Answers I (as.filterM p) (as.filterM q) :=
  (filterAuxM h []).bind fun kept _ => pure kept.reverse

theorem anyM : Answers I (as.anyM p) (as.anyM q) := by
  induction as with
  | nil => exact pure false
  | cons a as ih =>
      obtain ⟨ha, has⟩ := List.forall_mem_cons.mp h
      refine ha.bind fun b _ => ?_
      cases b with
      | true => exact pure true
      | false => exact ih has

theorem allM : Answers I (as.allM p) (as.allM q) := by
  induction as with
  | nil => exact pure true
  | cons a as ih =>
      obtain ⟨ha, has⟩ := List.forall_mem_cons.mp h
      refine ha.bind fun b _ => ?_
      cases b with
      | true => exact ih has
      | false => exact pure false

omit h

variable {select : Value → Eval Value} {f : Value → Except EvalError Value} {items : List Value} {body result : Ty}

theorem holds (op : AggregateOp) {x : Value} {r : Except EvalError Value} (hx : Answers I (select x) r) :
    Answers I (Aggregate.holds op select x) (r >>= Aggregate.truth op) :=
  hx.bind fun v _ => rule (Aggregate.truth op v)

variable (hselect : ∀ x ∈ items, Answers I (select x) (f x))

include hselect

theorem filter : Answers I (Aggregate.apply .filter items (some body) result select)
    (items.filterM (fun x => f x >>= Aggregate.truth .filter) >>= fun kept => .ok (.list kept)) :=
  (filterM fun x hx => (hselect x hx).holds .filter).bind fun kept _ => pure (Value.list kept)

theorem all : Answers I (Aggregate.apply .all items (some body) result select)
    (items.allM (fun x => f x >>= Aggregate.truth .all) >>= fun b => .ok (.boolean b)) :=
  (allM fun x hx => (hselect x hx).holds .all).bind fun b _ => pure (Value.boolean b)

theorem any : Answers I (Aggregate.apply .any items (some body) result select)
    (items.anyM (fun x => f x >>= Aggregate.truth .any) >>= fun b => .ok (.boolean b)) :=
  (anyM fun x hx => (hselect x hx).holds .any).bind fun b _ => pure (Value.boolean b)

theorem count : Answers I (Aggregate.apply .count items (some body) result select)
    (items.filterM (fun x => f x >>= Aggregate.truth .count) >>= fun kept => Aggregate.countValue kept.length) :=
  (filterM fun x hx => (hselect x hx).holds .count).bind fun kept _ => rule (Aggregate.countValue kept.length)

end Answers

end Eval

open Eval (Answers)

/-- The item in the slot after that of the list. -/
def Catalog.itemwise (cat : Catalog) (body : Expr) (item : Value) : Eval Value := do
  modify (·.bind 1 item)
  cat.eval (body.mapSlots (raise 0 1))

/-- For each item, an expression comes to what it comes to by itself. -/
theorem Lambda.Disciplined.answers_itemwise (cat : Catalog) {l : Lambda} (h : l.Disciplined)
    (hone : l.params.length = 1) (item : Value) :
    Answers (fun _ => True) (cat.itemwise l.body item) (cat.evalLambda l [item]) := by
  intro s _
  have hrow : [item].length = l.params.length := hone.symm
  have hagree : (Slots.ofArguments l.slots l.params [item]).Agree (raise 0 1) (· < l.params.length)
      (s.bind 1 item) := by
    intro n hn
    obtain rfl : n = 0 := by omega
    refine ⟨item, ?_, Slots.getElem?_bind_self s 1 item⟩
    exact Slots.getElem?_ofArguments h.params hrow l.slots (by simp)
  have hrun := cat.alike_eval (raise_injective 0 1) l.body h.free _ _ hagree
  rw [Catalog.itemwise, Eval.exec_bind, Eval.exec_modify, Catalog.evalLambda, if_pos hrow]
  exact ⟨hrun.1.eq.symm, trivial⟩

/-- The source of the aggregate is the list, so it is applied to the rows. -/
theorem evalLambda_aggregated (cat : Catalog) (element ty : Ty) (op : AggregateOp) (l : Lambda) (slots : Nat)
    {rows : List Value} {r : Except EvalError Value}
    (h : Answers (fun _ => True) (Aggregate.apply op rows (some l.body.ty) ty (cat.itemwise l.body)) r) :
    cat.evalLambda (l.aggregated element ty op slots) [.list rows] = r := by
  have hlength : [Value.list rows].length = (l.aggregated element ty op slots).params.length := rfl
  rw [← Expr.ty_substitute l.body] at h
  rw [Catalog.evalLambda, if_pos hlength]
  show (Eval.exec (cat.eval (.aggregate ty op 1 _ _)) _).1 = r
  rw [Catalog.eval, Eval.exec_bind, Catalog.eval,
    Eval.exec_slot (Slots.getElem?_ofArguments rfl rfl slots (by simp))]
  exact (h _ trivial).1

section

variable {ε α : Type} {p q : α → Except ε Bool} {as bs : List α}

end

section

variable {cat : Catalog} {l : Lambda} (hl : l.Disciplined) (hone : l.params.length = 1) (rows : List Value)
  (element ty : Ty) (slots : Nat)

include hl hone

end

/-! ### Queries -/

namespace Query

end Query

end RowQuery
