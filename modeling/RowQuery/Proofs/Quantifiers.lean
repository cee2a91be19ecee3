import RowQuery.Proofs.ItemConditions

/-!
Conditions that hold of all or of any item. Asking whether a condition holds of all items of a list, and denying that
its negation holds of any, go through the items in the same way: as long as the condition is true, and up to the first
item of which it is false or at which it fails. A count of the items of which the condition holds tells both answers.
-/

namespace RowQuery

open Parse Grammar Lexeme
open Eval (Answers)

/-! ### The texts -/

/-- An operation on the items of a sequence, with an argument or with none. -/
def Query.itemwise (s name argument : String) : String := s ++ "." ++ name ++ "(" ++ argument ++ ")"

namespace Environment

/-- A text is taken to its end as a single operand, where phrases may be nested so deep. -/
def TakesOperand (n : Nat) (env : Environment) (decls : List ParamDecl) (text : String) (args : List Argument)
    (e : Expr) (slots : Nat) : Prop :=
  ∃ (symbols : Symbols) (ls : List Lexeme) (shapes : Shapes), Symbols.ofText (bindParams decls) args = .ok symbols ∧
    Scans text.toList ls ∧ Takes (unary (level n)) (env.scope (bindParams decls) symbols) (decls.length, .empty) ls e
      (slots, shapes) []

variable {env : Environment} {decls : List ParamDecl} {text s p : String} {args : List Argument} {e : Expr}
  {slots n depth : Nat} {source condition : Lambda} {item : Ty}

theorem TakesOperand.compiles (h : env.TakesOperand (maxDepth - 1) decls text args e slots) :
    env.Compiles decls none text args ⟨bindParams decls, e, slots⟩ := by
  obtain ⟨symbols, ls, shapes, hsymbols, hscans, htakes⟩ := h
  have hexpression : Takes expression _ _ _ _ _ [] :=
    takes_descend (level_derived (maxDepth - 1)) (k := 6) htakes (Nat.zero_le 6) (.nil 0)
  exact compiles_of_takes hsymbols hscans hexpression (by simp)

theorem TakesOperand.negation (h : env.TakesOperand n decls text args e slots) (hty : e.ty = .boolean)
    (hplain : Ends .exclamation text.toList) :
    env.TakesOperand (n + 1) decls ("!" ++ text) args (.unary .boolean .not e) slots := by
  obtain ⟨symbols, ls, shapes, hsymbols, hscans, htakes⟩ := h
  have hnot : UnaryOp.not.lexeme.Whole := ⟨_, _, rfl, by decide, rfl⟩
  have hsigned : Takes (unary (level (n + 1))) _ _ _ _ _ [] := takes_negation htakes hty
  refine ⟨symbols, UnaryOp.not.lexeme :: ls, shapes, hsymbols, ?_, hsigned⟩
  rw [String.toList_append]
  exact hscans.cons hnot hplain

/-- Arguments of an operation on items, read in the scope of an item. -/
def TakesArguments (n : Nat) (env : Environment) (decls : List ParamDecl) (item : Ty) (slot : Nat) (text : String)
    (args : List Argument) (es : List Expr) (slots : Nat) : Prop :=
  ∀ symbols, Symbols.ofText (bindParams decls) args = .ok symbols → ∃ ls, Scans text.toList ls ∧
    ∀ made, ∃ made', Takes (argumentList (level n)) (env.itemScope decls symbols item slot) (slot + 1, made)
      (openParen :: (ls ++ [closeParen])) es (slots, made') []

/-- An operation on the items of a list that is an operand. -/
theorem CompilesPrimary.itemwise {op : AggregateOp} {es : List Expr}
    (hs : env.CompilesPrimary depth decls s args source) (hlist : source.body.ty = .list item) (hn : depth ≤ n)
    (hes : env.TakesArguments n decls item source.slots text args es slots)
    (htyped : Typing.aggregate env.catalog source.body source.slots op.name es = .ok e) :
    env.TakesOperand n decls (Query.itemwise s op.name text) args e slots ∧
      Ends .exclamation (Query.itemwise s op.name text).toList := by
  obtain ⟨symbols, ls, hsymbols, hfronts⟩ := hs.fronts hlist hn
  obtain ⟨ms, hscans, hargs⟩ := hes symbols hsymbols
  have htext : (Query.itemwise s op.name text).toList =
      s.toList ++ '.' :: (op.name.toList ++ '(' :: (text.toList ++ [')'])) := by
    simp [Query.itemwise]
  rw [htext]
  refine ⟨?_, hfronts.plain _⟩
  obtain ⟨between, hmembers⟩ := hfronts.takes .empty (⟨.identifier, op.name⟩ :: openParen :: (ms ++ [closeParen]))
  obtain ⟨shapes, hargs⟩ := hargs between
  rw [← AggregateOp.unmarked_name op] at htyped
  have hmember : Takes (member (level n) (.value source.body)) (env.scope (bindParams decls) symbols)
      (source.slots, between) _ e _ [] :=
    takes_itemwise (Typing.aggregated?_list env.catalog hlist _) hargs htyped
  rw [← List.append_nil (⟨.identifier, op.name⟩ :: openParen :: (ms ++ [closeParen]) : List Lexeme)] at hmembers
  have hprimary := (hmembers.next (takes_nextMember hmember)).takes (level_derived n) (.nil 6)
  refine ⟨symbols, _, shapes, hsymbols, ?_, takes_unary_of_primary hprimary fun t ht => ?_⟩
  · rw [htext]
    exact hfronts.scans (hscans.call op.whole_name)
  · rw [List.append_nil] at ht
    exact hfronts.unsigned ht

theorem CompilesItem.arguments {slot : Nat} (h : env.CompilesItem depth decls item p args condition) (hn : depth ≤ n)
    (hslot : decls.length ≤ slot) :
    env.TakesArguments n decls item slot p args [itemBody decls condition slot]
      (condition.slots + (slot - decls.length)) := by
  intro symbols hsymbols
  obtain ⟨symbols', ls, hsymbols', hscans, htakes⟩ := h.takes hn
  cases hsymbols.symm.trans hsymbols'
  refine ⟨ls, hscans, fun made => ?_⟩
  obtain ⟨made', hcondition⟩ := @htakes slot [closeParen] hslot (.of_first (show .closeParen ∈ ends by decide))
    (.of_first (Or.inl rfl)) made
  exact ⟨made', takes_argumentList (takes_oneArgument hcondition (by decide))⟩

theorem CompilesPrimary.le_slots (hs : env.CompilesPrimary depth decls s args source) :
    decls.length ≤ source.slots := by
  obtain ⟨hparams, shapes, hreads⟩ := hs
  have hle := hreads.le_slots fun h =>
    (reader_derived (level_derived depth) 6 (reads_unary_of_unsigned h)).1.le
  rwa [hparams, length_bindParams] at hle

/-- The operations that may be given a condition, on an operand. -/
theorem CompilesPrimary.conditional {op : AggregateOp} {depth' : Nat} (hop : op ∈ AggregateOp.conditional)
    (hs : env.CompilesPrimary depth decls s args source) (hlist : source.body.ty = .list item) (hn : depth ≤ n)
    (hp : env.CompilesItem depth' decls item p args condition) (hn' : depth' ≤ n) :
    ∃ slots, env.TakesOperand n decls (Query.itemwise s op.name p) args
      (.aggregate (Typing.aggregateType env.catalog op source.body.ty (some .boolean)) op source.slots source.body
        (some (itemBody decls condition source.slots))) slots := by
  have hty : (itemBody decls condition source.slots).ty = .boolean := by rw [itemBody, Expr.ty_substitute, hp.2.1]
  have htyped := Typing.aggregate_condition env.catalog hop source.body source.slots hty
  exact ⟨_, (hs.itemwise hlist hn (hp.arguments hn' hs.le_slots) htyped).1⟩

end Environment

/-! ### Evaluation -/

namespace Eval

end Eval

section

variable {cat : Catalog} {I : Slots → Prop} {ty : Ty} {op : AggregateOp} {slot : Nat} {S P : Expr}
  {items : List Value} {f : Value → Except EvalError Value}

/-- A run that succeeds, with the slots that it leaves. -/
theorem Eval.Answers.exec_eq {α : Type} {p : Eval α} {a : α} {s : Slots} (h : Answers I p (.ok a)) (hs : I s) :
    Eval.exec p s = (.ok a, (Eval.exec p s).2) := Prod.ext (h s hs).1 rfl

theorem Catalog.exec_aggregate {s t : Slots} (hS : Eval.exec (cat.eval S) s = (.ok (.list items), t)) :
    Eval.exec (cat.eval (.aggregate ty op slot S (some P))) s =
      Eval.exec (Aggregate.apply op items (some P.ty) ty (cat.evalItem slot P)) t := by
  rw [Catalog.eval, Eval.exec_bind, hS]
  rfl

theorem Eval.Answers.aggregate {r : Except EvalError Value} (hS : Answers I (cat.eval S) (.ok (.list items)))
    (h : Answers I (Aggregate.apply op items (some P.ty) ty (cat.evalItem slot P)) r) :
    Answers I (cat.eval (.aggregate ty op slot S (some P))) r := by
  intro s hs
  rw [Catalog.exec_aggregate (hS.exec_eq hs)]
  exact h _ (hS s hs).2

theorem Eval.Answers.size (hS : Answers I (cat.eval S) (.ok (.list items))) :
    Answers I (cat.eval (.aggregate ty .count slot S none)) (Aggregate.countValue items.length) := by
  intro s hs
  have hrun : Eval.exec (cat.eval (.aggregate ty .count slot S none)) s =
      Eval.exec (Aggregate.rule (Aggregate.countValue items.length)) (Eval.exec (cat.eval S) s).2 := by
    rw [Catalog.eval, Eval.exec_bind, hS.exec_eq hs]
    rfl
  rw [hrun]
  exact rule _ _ (hS s hs).2

end

section

variable {ε α : Type} {p : α → Except ε Bool} {as bs : List α}

end

theorem Eval.Answers.evalLambda {cat : Catalog} {decls : List ParamDecl} {l : Lambda} {row : List Value}
    {r : Except EvalError Value} (hparams : l.params = Environment.bindParams decls) (hrow : row.length = decls.length)
    (h : Answers (·.StartWith row) (cat.eval l.body) r) : cat.evalLambda l row = r := by
  have hlength : row.length = l.params.length := by rw [hparams, Environment.length_bindParams, hrow]
  have hslots : l.params.map (·.slot) = List.range l.params.length := by
    rw [hparams]
    exact Environment.bindParams_slots decls
  have hstart : (Slots.ofArguments l.slots l.params row).StartWith row :=
    fun i hi => Slots.getElem?_ofArguments hslots hlength l.slots hi
  rw [Catalog.evalLambda, if_pos hlength]
  exact (h _ hstart).1

namespace Environment

variable {env : Environment} {decls : List ParamDecl} {s : String} {args : List Argument} {source : Lambda}
  {depth : Nat} {row : List Value}

/-- In all slots that start with the row, an operand comes to what it comes to by itself. -/
theorem CompilesPrimary.answers (cat : Catalog) (hs : env.CompilesPrimary depth decls s args source)
    (hdepth : depth < maxDepth) (hrow : row.length = decls.length) :
    Answers (·.StartWith row) (cat.eval source.body) (cat.evalLambda source row) := by
  intro t ht
  have hlength : row.length = source.params.length := by rw [hs.1, length_bindParams, hrow]
  have hrun := (hs.compiles hdepth).disciplined.exec_renamed cat Function.injective_id (fun _ _ => rfl) hlength ht
  rwa [Expr.mapSlots_id] at hrun

end Environment

end RowQuery
