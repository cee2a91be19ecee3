import Mathlib.Data.List.Nodup
import RowQuery.Proofs.Embedding
import RowQuery.Proofs.MemberPhrases
import RowQuery.Proofs.RoundTrip

/-!
Operands whose values are known. A name, a number, a member of what a name stands for and a difference are read from
their lexemes and evaluated side by side, so that a text made of them compiles, and its value for given arguments
follows from what the members do.
-/

namespace RowQuery

open Parse Grammar Lexeme

/-! ### Members that fit exactly -/

namespace Overload

variable {cat : Catalog} {args : List Expr} {α : Type} {params : α → List Ty} {members : List α} {m : α}

/-- The member whose parameters are exactly the types of the arguments is chosen. -/
theorem choose_exact (hm : m ∈ members) (hparams : params m = args.map (·.ty))
    (hdistinct : (members.map params).Nodup) : choose cat params members args = .found m args := by
  obtain ⟨index, hresolve⟩ : ∃ index, resolve cat (members.map params) args = _ :=
    resolve_exact (hparams ▸ List.mem_map_of_mem hm) hdistinct
  have hindex := (resolve_found hresolve).1
  rw [List.getElem?_map] at hindex
  obtain ⟨m', hm', hsame⟩ := Option.map_eq_some_iff.mp hindex
  have heq : m' = m :=
    List.inj_on_of_nodup_map hdistinct (List.mem_of_getElem? hm') hm (hsame.trans hparams.symm)
  rw [heq] at hm'
  simp only [choose, hresolve, hm']

theorem chooseLevel_exact (hm : m ∈ members) (hparams : params m = args.map (·.ty))
    (hdistinct : (members.map params).Nodup) (later : List (List α)) :
    chooseLevel cat params args (members :: later) = .found m args := by
  rw [chooseLevel, choose_exact hm hparams hdistinct]

end Overload

/-! ### Phrases and their values -/

/-- Lexemes are read as a phrase of a level, where phrases may be nested so deep, and the phrase evaluates to a result
where the first slots hold given values. -/
structure Denotes (scope : Scope) (row : List Value) (depth k : Nat) (ls : List Lexeme) (e : Expr)
    (r : Except EvalError Value) : Prop where
  takes {n : Nat} {m : Nat × Shapes} {rest : List Lexeme} (hn : depth ≤ n) (hstops : Stops k rest)
    (hrest : first rest ≠ .openParen) : Takes (reader (level n) k) scope m ls e m rest
  evaluates {s : Slots} (hs : s.StartWith row) : Eval.exec (scope.catalog.eval e) s = (r, s)

/-- Lexemes are read as arguments up to a bracket, and have values where the first slots hold given values. -/
structure DenotesAll (scope : Scope) (row : List Value) (depth : Nat) (ls : List Lexeme) (es : List Expr)
    (vs : List Value) : Prop where
  takes {n : Nat} {m : Nat × Shapes} {rest : List Lexeme} (hn : depth < n)
    (hrest : first rest = .closeParen ∨ first rest = .closeBracket) :
    Takes (arguments (level n)) scope m ls es m rest
  evaluates {s : Slots} (hs : s.StartWith row) : Eval.exec (scope.catalog.evalAll es) s = (.ok vs, s)

/-- A name stands for an expression that has a value where the first slots hold given values. -/
structure Scope.Knows (scope : Scope) (row : List Value) (name : String) (e : Expr) (v : Value) : Prop where
  starts {inner : Level} {m : Nat × Shapes} {rest : List Lexeme} :
    Takes (primaryStart inner) scope m [⟨.identifier, name⟩] e m rest
  unsigned : Text.fold name ≠ "not"
  evaluates {s : Slots} (hs : s.StartWith row) : Eval.exec (scope.catalog.eval e) s = (.ok v, s)

variable {scope : Scope} {row : List Value} {depth k : Nat} {ls ms : List Lexeme} {e e₂ : Expr} {v v₂ : Value}
  {r : Except EvalError Value}

namespace Denotes

theorem loosen (h : Denotes scope row depth k ls e r) {j : Nat} (hj : j ≤ k) : Denotes scope row depth j ls e r where
  takes hn hstops hrest := takes_descend (level_derived _) (h.takes hn (hstops.mono hj) hrest) hj hstops
  evaluates := h.evaluates

theorem expression (h : Denotes scope row depth k ls e r) {n : Nat} {m : Nat × Shapes} {rest : List Lexeme}
    (hn : depth < n) (hstops : Stops 0 rest) (hrest : first rest ≠ .openParen) :
    Takes (level n).expression scope m ls e m rest := by
  cases n with
  | zero => cases hn
  | succ n => exact (h.loosen (Nat.zero_le k)).takes (Nat.le_of_lt_succ hn) hstops hrest

/-- A number that is written out. -/
theorem literal {text : String} {t : Ty} (h : integerLiteral? text = some (.literal t v text)) :
    Denotes scope row 0 6 [⟨.integerLiteral, text⟩] (.literal t v text) (.ok v) where
  takes {n _ _} _ hstops _ := by
    refine takes_unary_of_primary (takes_literal (level_derived n) h hstops) fun t ht => ?_
    have hkind : t.kind = .integerLiteral := kind_of_shows ht
    simp [unaryOperator?, hkind, Token.isWord]
  evaluates _ := rfl

/-- The difference of two numbers. -/
theorem difference {a b : Word .int32} (hleft : Denotes scope row depth 6 ls e (.ok (.int .int32 a)))
    (hright : Denotes scope row depth 6 ms e₂ (.ok (.int .int32 b))) (hty : e.ty = .int32) (hty₂ : e₂.ty = .int32) :
    Denotes scope row depth 4 (ls ++ BinaryOp.subtract.lexeme :: ms) (.binary .int32 .subtract e e₂)
      (.ok (.int .int32 (.wrap .int32 (a.val - b.val)))) where
  takes {n m rest} hn hstops hrest := by
    have hminus : Stops 5 (BinaryOp.subtract.lexeme :: (ms ++ rest)) := .of_lexeme (by decide)
    have hfirst := (hleft.loosen (j := 5) (by decide)).takes (m := m) hn hminus (by simp [first, BinaryOp.lexeme])
    have hlast := (hright.loosen (j := 5) (by decide)).takes (m := m) hn (hstops.mono (by decide)) hrest
    refine ((Gathers.of_takes hfirst).next (fun t ht => ⟨operators_lexeme ht, ?_⟩) hlast).takes (level_derived n)
      (by decide) hstops
    exact takes_typed (Typing.arithmetic_exact .subtract t.text hty hty₂ (by decide) (by decide))
  evaluates hs := by
    have hfirst := hleft.evaluates hs
    have hlast := hright.evaluates hs
    rw [Catalog.eval, Eval.exec_bind, hfirst]
    show Eval.exec (scope.catalog.eval e₂ >>= fun b => Eval.rule (Eval.strict .subtract _ b)) _ = _
    rw [Eval.exec_bind, hlast]
    rfl

end Denotes

namespace DenotesAll

theorem one (h : Denotes scope row depth k ls e (.ok v)) : DenotesAll scope row depth ls [e] [v] where
  takes {_ _ rest} hn hrest := by
    have hstops : Stops 0 rest := hrest.elim (fun h => .of_first (Or.inl h)) .of_closeBracket
    refine takes_oneArgument (h.expression hn hstops ?_) ?_ <;> rcases hrest with hrest | hrest <;> simp [hrest]
  evaluates hs := by
    have hfirst := h.evaluates hs
    rw [Catalog.evalAll, Eval.exec_bind, hfirst]
    rfl

theorem two {j : Nat} (h : Denotes scope row depth k ls e (.ok v)) (h₂ : Denotes scope row depth j ms e₂ (.ok v₂)) :
    DenotesAll scope row depth (ls ++ comma :: ms) [e, e₂] [v, v₂] where
  takes {_ _ rest} hn hrest := by
    have hstops : Stops 0 rest := hrest.elim (fun h => .of_first (Or.inl h)) .of_closeBracket
    refine takes_twoArguments (h.expression hn (.of_comma rfl) (by simp [first, comma]))
      (h₂.expression hn hstops ?_) ?_ <;> rcases hrest with hrest | hrest <;> simp [hrest]
  evaluates hs := by
    have hfirst := h.evaluates hs
    have hlast := (one h₂).evaluates hs
    rw [Catalog.evalAll, Eval.exec_bind, hfirst]
    show Eval.exec (scope.catalog.evalAll [e₂] >>= fun vs => pure (v :: vs)) _ = _
    rw [Eval.exec_bind, hlast]
    rfl

end DenotesAll

namespace Scope.Knows

variable {name member : String} {es : List Expr} {vs : List Value}

/-- The name of a parameter stands for it. -/
theorem of_declares {env : Environment} {params : List Param} {t : Ty} {slot : Nat}
    (hscope : scope.Declares env params) (hmem : ⟨some name, t, slot⟩ ∈ params) (hname : env.PlainName name)
    (hrow : row[slot]? = some v) : scope.Knows row name (.param t slot) v where
  starts := takes_word (takes_declared hscope hmem hname)
  unsigned := hname.fold_ne _ (by decide)
  evaluates {s} hs := by
    have hslot : slot < row.length := (List.getElem?_eq_some_iff.mp hrow).1
    rw [Catalog.eval]
    exact Eval.exec_slot ((hs slot hslot).trans hrow)

/-- The implicit parameter stands for the only argument. -/
theorem implicit (env : Environment) (t : Ty) (symbols : Symbols) (v : Value) :
    (env.scope (Environment.bindParams [⟨none, t⟩]) symbols).Knows [v] "it" (.param t 0) v where
  starts := takes_implicit rfl
  unsigned := by decide
  evaluates {s} hs := by
    have hslot : s[0]? = some v := hs 0 (Nat.succ_pos 0)
    rw [Catalog.eval]
    exact Eval.exec_slot hslot

theorem denotes (h : scope.Knows row name e v) : Denotes scope row 0 6 [⟨.identifier, name⟩] e (.ok v) where
  takes {n _ _} _ hstops _ :=
    takes_unary_of_primary (takes_primary (level_derived n) h.starts hstops) fun _ => unaryOperator?_name h.unsigned
  evaluates := h.evaluates

/-- One member of what a name stands for. -/
theorem takes_next (h : scope.Knows row name e v) {n : Nat} {m : Nat × Shapes} {rest : List Lexeme}
    (hnext : Takes (nextMember (level n) e) scope m ls (some e₂) m rest) (hstops : Stops 6 rest) :
    Takes (reader (level n) 6) scope m (⟨.identifier, name⟩ :: ls) e₂ m rest :=
  takes_unary_of_primary (((TakesMembers.of_start h.starts).next hnext).takes (level_derived n) hstops)
    fun _ => unaryOperator?_name h.unsigned

theorem evalReceiver (h : scope.Knows row name e v) (hv : v.isNull = false) (member : String) {s : Slots}
    (hs : s.StartWith row) : Eval.exec (scope.catalog.evalReceiver member (some e)) s = (.ok (some v), s) := by
  have hvalue := h.evaluates hs
  have hpresent : Eval.receiver e.ty member v = .ok v := by simp [Eval.receiver, hv]
  rw [Catalog.evalReceiver, Eval.exec_bind, hvalue]
  simp only [hpresent]
  rfl

/-- A property of what a name stands for. -/
theorem property (h : scope.Knows row name e v) (hv : v.isNull = false) (hmember : unmarked member = member)
    {p : Property} (hp : scope.catalog.property? e.ty member false = some p) :
    Denotes scope row 0 6 [⟨.identifier, name⟩, dot, ⟨.identifier, member⟩] (.property p.ty p (some e))
      (Eval.property scope.catalog p (some v)) where
  takes _ hstops hrest := by
    have htyped : Typing.property scope.catalog (.value e) (unmarked member) = .ok (.property p.ty p (some e)) := by
      simp only [hmember, Typing.property, Typing.Receiver.ty, Typing.Receiver.isStatic, hp]
      rfl
    exact h.takes_next (takes_nextMember (takes_property hrest htyped)) hstops
  evaluates hs := by
    have hreceiver := h.evalReceiver hv p.name hs
    rw [Catalog.eval, Eval.exec_bind, hreceiver]
    show Eval.exec (Eval.rule _) _ = _
    cases Eval.property scope.catalog p (some v) <;> rfl

theorem evaluates_call (h : scope.Knows row name e v) (hv : v.isNull = false)
    (hargs : DenotesAll scope row depth ls es vs) (method : Method) {s : Slots} (hs : s.StartWith row) :
    Eval.exec (scope.catalog.eval (.call method.result method (some e) es)) s =
      (Eval.call scope.catalog method (some v) vs, s) := by
  have hreceiver := h.evalReceiver hv method.name hs
  have hvalues := hargs.evaluates hs
  rw [Catalog.eval, Eval.exec_bind, hreceiver]
  show Eval.exec (scope.catalog.evalAll es >>= fun args => Eval.rule (Eval.call _ _ _ args)) _ = _
  rw [Eval.exec_bind, hvalues]
  show Eval.exec (Eval.rule _) _ = _
  cases Eval.call scope.catalog method (some v) vs <;> rfl

/-- A call of a method that takes exactly such arguments. -/
theorem call (h : scope.Knows row name e v) (hv : v.isNull = false) (hmember : unmarked member = member)
    (hargs : DenotesAll scope row depth ls es vs) {method : Method} {level : Members} {levels : List Members}
    (hitem : (Typing.Receiver.value e).aggregated? scope.catalog member = none)
    (hlevels : scope.catalog.memberChain e.ty = level :: levels)
    (hmethod : method ∈ level.methodsNamed member false) (hparams : method.params = es.map (·.ty))
    (hdistinct : ((level.methodsNamed member false).map Method.params).Nodup) :
    Denotes scope row (depth + 1) 6
      (⟨.identifier, name⟩ :: dot :: ⟨.identifier, member⟩ :: openParen :: (ls ++ [closeParen]))
      (.call method.result method (some e) es) (Eval.call scope.catalog method (some v) vs) where
  takes hn hstops _ := by
    have htyped : Typing.methodCall scope.catalog (.value e) (unmarked member) es =
        .ok (.call method.result method (some e) es) := by
      simp only [hmember, Typing.methodCall, Typing.Receiver.ty, Typing.Receiver.isStatic, hlevels, List.map_cons,
        Overload.chooseLevel_exact hmethod hparams hdistinct]
      rfl
    rw [← hmember] at hitem
    refine h.takes_next (takes_nextMember (takes_methodCall ?_ hitem htyped)) hstops
    exact takes_argumentList (hargs.takes hn (Or.inl rfl))
  evaluates hs := h.evaluates_call hv hargs method hs

/-- An element of what a name stands for, by an indexer that takes exactly such arguments. -/
theorem element (h : scope.Knows row name e v) (hv : v.isNull = false) (hargs : DenotesAll scope row depth ls es vs)
    (hlist : ∀ item, e.ty ≠ .list item) {indexer : Method} {level : Members} {levels : List Members}
    (hlevels : scope.catalog.memberChain e.ty = level :: levels) (hindexer : indexer ∈ level.indexers)
    (hparams : indexer.params = es.map (·.ty)) (hdistinct : (level.indexers.map Method.params).Nodup) :
    Denotes scope row (depth + 1) 6 (⟨.identifier, name⟩ :: openBracket :: (ls ++ [closeBracket]))
      (.call indexer.result indexer (some e) es) (Eval.call scope.catalog indexer (some v) vs) where
  takes hn hstops _ := by
    have htyped : Typing.element scope.catalog e es = .ok (.call indexer.result indexer (some e) es) := by
      unfold Typing.element
      split
      · rename_i item hitem
        exact absurd hitem (hlist item)
      · rw [hlevels, List.map_cons, Overload.chooseLevel_exact hindexer hparams hdistinct]
    exact h.takes_next (takes_nextElement (hargs.takes hn (Or.inr rfl)) htyped) hstops
  evaluates hs := h.evaluates_call hv hargs indexer hs

end Scope.Knows

/-- A text of known value compiles, and its value for the arguments is that value. -/
theorem Denotes.compiles {env : Environment} {decls : List ParamDecl} {symbols : Symbols} {text : String}
    (hsymbols : Symbols.ofText (Environment.bindParams decls) [] = .ok symbols)
    (h : Denotes (env.scope (Environment.bindParams decls) symbols) row depth k ls e r) (hdepth : depth < maxDepth)
    (hscans : Scans text.toList ls) (hrow : row.length = decls.length) :
    ∃ l, env.Compiles decls none text [] l ∧ env.catalog.evalLambda l row = r := by
  refine ⟨⟨Environment.bindParams decls, e, decls.length⟩, ?_, ?_⟩
  · exact Environment.compiles_of_takes hsymbols hscans (h.expression hdepth (.nil 0) (by simp [first])) (by simp)
  · have hlength : row.length = (Environment.bindParams decls).length := by
      rw [hrow, Environment.length_bindParams]
    have hstart : (Slots.ofArguments decls.length (Environment.bindParams decls) row).StartWith row :=
      fun i hi => Slots.getElem?_ofArguments (Environment.bindParams_slots decls) hlength decls.length hi
    rw [Catalog.evalLambda, if_pos hlength]
    exact congrArg Prod.fst (h.evaluates hstart)

end RowQuery
