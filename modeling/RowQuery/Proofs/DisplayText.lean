import RowQuery.Proofs.Failing
import RowQuery.Proofs.MemberPhrases
import RowQuery.Proofs.Parentheses
import RowQuery.Proofs.Soundness

/-!
The text of a value, as a member of every type. The member is shared: it is found after the members that a type
declares itself, and evaluates to the text of its receiver. A call on a sequence is no call of a member but an operation
on the items, unless the type of the sequence declares the name; so the member cannot be reached from lists, groups and
objects that can be iterated.
-/

namespace RowQuery

open Parse Grammar Lexeme

/-! ### Calls without arguments -/

namespace Grammar

variable {scope : Scope} {inner : Level} {m m' : Nat × Shapes} {ls rest : List Lexeme} {e : Expr} {name : String}

theorem refuses_aggregate {source : Expr} {item : Ty} {fault : Fault}
    (hitem : (Typing.Receiver.value source).aggregated? scope.catalog (unmarked name) = some item)
    (h : ∀ slot, Typing.aggregate scope.catalog source slot (unmarked name) [] = .error fault) :
    Refuses (member inner (.value source)) scope m (⟨.identifier, name⟩ :: openParen :: closeParen :: rest) fault := by
  refine Refuses.look fun t _ => takes_identifier.refuses (takes_advance.refuses ?_)
  intro s hs hm
  have hat : Reads (at? .openParen) scope s true s :=
    reads_at?.mpr ⟨by rw [kind_of_shows hs.shows]; rfl, rfl⟩
  have hslot : Reads newSlot scope s s.slots { s with slots := s.slots + 1 } := reads_newSlot.mpr ⟨rfl, rfl⟩
  have harguments : Takes (argumentList inner) { scope with it := some (.param item s.slots) } (s.slots + 1, s.shapes)
      [openParen, closeParen] [] (s.slots + 1, s.shapes) rest := takes_argumentList_nil
  obtain ⟨s', hs', -⟩ := harguments { s with slots := s.slots + 1 } ⟨hs.shows, hs.rest, hs.finished⟩ rfl
  have hwithin : Reads (withReader (fun scope : Scope => { scope with it := some (.param item s.slots) })
      (argumentList inner)) scope { s with slots := s.slots + 1 } [] s' := hs'
  refine ⟨t.pos, hat.fails ((reads_read.mpr ⟨rfl, rfl⟩).fails ?_)⟩
  rw [hitem]
  exact hslot.fails (hwithin.fails (fails_typed (h s.slots)))

/-- A member that is refused makes the expression fail that it belongs to. -/
theorem refuses_member {receiver : Expr} {fault : Fault}
    (h : Takes (primaryStart inner) scope m ls receiver m' (dot :: rest))
    (hmember : Refuses (member inner (.value receiver)) scope m' rest fault) :
    Refuses (primary inner) scope m (ls ++ dot :: rest) fault := by
  refine h.refuses fun s hs hm => ?_
  have hnext : Refuses (nextMember inner receiver) scope m' (dot :: rest) fault := by
    refine Refuses.look fun t ht => ?_
    simp only [show t.kind = .dot from kind_of_shows ht]
    exact takes_advance.refuses (hmember.bind _)
  obtain ⟨pos, hpos⟩ := hnext s hs hm
  exact ⟨pos, hpos.repeatStep⟩

end Grammar

/-! ### The shared member -/

/-- The member that gives the text of a value. -/
def Method.display : Method := Predefined.instanceMethod "ToString" [] .string .toString

namespace Typing

variable {cat : Catalog} {e : Expr}

theorem chooseLevel_shared {levels : List Members} {name : String} (h : ∀ m ∈ levels, m.methodsNamed name false = [])
    (args : List Expr) (last : List (List Method)) :
    Overload.chooseLevel cat Method.params args ((levels.map (·.methodsNamed name false)) ++ last) =
      Overload.chooseLevel cat Method.params args last := by
  induction levels with
  | nil => rfl
  | cons m levels ih =>
      obtain ⟨hm, hlevels⟩ := List.forall_mem_cons.mp h
      rw [List.map_cons, List.cons_append, hm]
      exact ih hlevels

/-- Where a type declares no method of that name, the shared one is called. -/
theorem methodCall_display (h : cat.declaresMethod e.ty "ToString" = false) :
    methodCall cat (.value e) "ToString" [] = .ok (.call .string .display (some e) []) := by
  have hnone : ∀ m ∈ cat.declaredMembers e.ty, m.methodsNamed "ToString" false = [] := by
    intro m hm
    have hname := List.any_eq_false.mp h m hm
    rw [List.any_eq_true, not_exists] at hname
    refine List.filter_eq_nil_iff.mpr fun x hx hnamed => hname x ⟨hx, ?_⟩
    exact (Bool.and_eq_true_iff.mp hnamed).2
  have hlast : Overload.chooseLevel cat Method.params [] [Predefined.shared.methodsNamed "ToString" false] =
      .found .display [] := rfl
  simp only [methodCall, Catalog.memberChain, Receiver.ty, Receiver.isStatic, Receiver.expr?, List.map_append,
    List.map_singleton, chooseLevel_shared hnone, hlast]
  rfl

theorem aggregate_display (slot : Nat) :
    aggregate cat e slot "ToString" [] = .error (.noApplicableAggregate "ToString") := by
  have hnone : Signatures.aggregatesNamed "ToString" = [] := by decide
  rw [aggregate, hnone]
  rfl

end Typing

/-- Only classes may declare such a member for themselves. -/
theorem Catalog.declaresMethod_display (cat : Catalog) {t : Ty}
    (h : ∀ c, t = .cls c → cat.declaresMethod (.cls c) "ToString" = false) :
    cat.declaresMethod t "ToString" = false := by
  cases t with
  | cls c => exact h c rfl
  | string =>
      have hstring : (Predefined.string.methods.any fun m => Text.sameName m.name "ToString") = false := by decide
      simp [declaresMethod, declaredMembers, Predefined.ofType?, hstring]
  | _ => rfl

/-! ### The text -/

/-- A text that asks for the text of an expression. -/
def Query.displayed (text : String) : String := "(" ++ text ++ ").ToString()"

def Lexeme.display : List Lexeme := [⟨.identifier, "ToString"⟩, openParen, closeParen]

theorem Scans.displayed {text : String} {ls : List Lexeme} (h : Scans text.toList ls) :
    Scans (Query.displayed text).toList (Lexeme.parenthesized ls ++ dot :: Lexeme.display) := by
  have hclose : Scans closeParen.text.toList [closeParen] := .single ⟨_, _, rfl, by decide, rfl⟩
  have hopen := hclose.cons (l := openParen) ⟨_, _, rfl, by decide, rfl⟩ fun _ _ => rfl
  have hname := hopen.cons (l := ⟨.identifier, "ToString"⟩) ⟨_, _, rfl, by decide, rfl⟩ (by rintro _ ⟨⟩; decide)
  have hdot := hname.cons (l := dot) ⟨_, _, rfl, by decide, rfl⟩ fun _ _ => rfl
  have hlast := hdot.cons (l := closeParen) ⟨_, _, rfl, by decide, rfl⟩ fun _ _ => rfl
  have hinside := h.append hlast fun l _ => divides_closeParen.ends l.kind _
  have hall := hinside.cons (l := openParen) ⟨_, _, rfl, by decide, rfl⟩ fun _ _ => rfl
  simpa [Query.displayed, Lexeme.parenthesized, Lexeme.display, openParen, closeParen, dot] using hall

/-- The text of a compiled expression. -/
def Lambda.display (l : Lambda) : Lambda := { l with body := .call .string .display (some l.body) [] }

namespace Environment.CompilesWithin

variable {env : Environment} {decls : List ParamDecl} {text : String} {args : List Argument} {l : Lambda}

/-- The receiver of the member is the expression that stands in parentheses. -/
theorem takes_receiver (h : env.CompilesWithin (maxDepth - 1) decls none text args l) :
    ∃ (symbols : Symbols) (ls : List Lexeme) (grow : Shapes → Shapes),
      Symbols.ofText (bindParams decls) args = .ok symbols ∧
      Scans (Query.displayed text).toList (Lexeme.parenthesized ls ++ dot :: Lexeme.display) ∧
      ∀ made : Shapes, Takes (primaryStart (level (maxDepth - 1))) (env.scope (bindParams decls) symbols)
        (decls.length, made) (Lexeme.parenthesized ls) l.body (l.slots, grow made) (dot :: Lexeme.display) := by
  obtain ⟨symbols, ls, grow, used, hsymbols, hscans, hused, htakes⟩ := h.takes_parenthesized_start (n := maxDepth - 2)
  refine ⟨symbols, ls, grow, hsymbols, hscans.displayed, fun made => ?_⟩
  have hstart : Takes (primaryStart (level (maxDepth - 1))) _ (decls.length, made) _ _
      (decls.length + used, grow made) _ := htakes 0 made (dot :: Lexeme.display)
  rwa [raise_zero, Expr.mapSlots_id, ← hused] at hstart

theorem display (h : env.CompilesWithin (maxDepth - 1) decls none text args l)
    (hdeclares : env.catalog.declaresMethod l.body.ty "ToString" = false)
    (hitem : env.catalog.elementType? l.body.ty = none) :
    env.Compiles decls none (Query.displayed text) args l.display := by
  have hcompiles : env.Compiles decls none text args l := h.mono (by decide)
  have hparams := hcompiles.derives.1
  obtain ⟨symbols, ls, grow, hsymbols, hscans, htakes⟩ := h.takes_receiver
  have hmember : Takes (member (level (maxDepth - 1)) (.value l.body)) (env.scope (bindParams decls) symbols)
      (l.slots, grow .empty) Lexeme.display (.call .string .display (some l.body) []) (l.slots, grow .empty) [] := by
    refine takes_methodCall takes_argumentList_nil ?_ (Typing.methodCall_display hdeclares)
    show (if _ then none else env.catalog.elementType? l.body.ty) = none
    rw [hitem, ite_self]
  have hprimary := takes_primary_member (level_derived (maxDepth - 1)) (htakes .empty) hmember (.nil 6)
  have hoperand : Takes (reader (level (maxDepth - 1)) 6) _ _ _ _ _ [] :=
    takes_unary_of_primary hprimary fun _ => unaryOperator?_openParen
  have hexpression : Takes expression _ _ _ _ _ [] :=
    takes_descend (level_derived (maxDepth - 1)) hoperand (Nat.zero_le 6) (.nil 0)
  have hdisplayed : env.Compiles decls none (Query.displayed text) args
      ⟨bindParams decls, .call .string .display (some l.body) [], l.slots⟩ :=
    compiles_of_takes hsymbols hscans hexpression (by simp)
  rwa [← hparams] at hdisplayed

theorem refuses_display (h : env.CompilesWithin (maxDepth - 1) decls none text args l)
    (hdeclares : env.catalog.declaresMethod l.body.ty "ToString" = false) {item : Ty}
    (hitem : env.catalog.elementType? l.body.ty = some item) (shapes : Shapes) :
    ∃ pos, ((env.compile decls none (Query.displayed text) args).exec shapes).1 =
      .error ⟨.noApplicableAggregate "ToString", pos⟩ := by
  obtain ⟨symbols, ls, grow, hsymbols, hscans, htakes⟩ := h.takes_receiver
  have haggregated : (Typing.Receiver.value l.body).aggregated? env.catalog "ToString" = some item := by
    have hstring : l.body.ty ≠ .string := by
      intro hty
      rw [hty] at hitem
      cases hitem
    simp [Typing.Receiver.aggregated?, hstring, hdeclares, hitem]
  have hmember : Refuses (member (level (maxDepth - 1)) (.value l.body)) (env.scope (bindParams decls) symbols)
      (l.slots, grow shapes) Lexeme.display (.noApplicableAggregate "ToString") :=
    refuses_aggregate haggregated Typing.aggregate_display
  obtain ⟨s, hadvance, hahead, hmade⟩ := hscans.begins (env.scope (bindParams decls) symbols) (bindParams decls) shapes
  rw [length_bindParams] at hmade
  obtain ⟨pos, hpos⟩ := refuses_member (htakes shapes) hmember s hahead hmade
  have hoperand := fails_unary hpos (unaryOperator?_openParen hahead.shows)
  exact ⟨pos, compile_of_fails none hsymbols hadvance (fails_reader hoperand 0)⟩

end Environment.CompilesWithin

/-! ### Evaluation -/

/-- The text of an expression is that of its value, which must be there unless the type is nullable. -/
theorem Catalog.evalLambda_display (cat : Catalog) (l : Lambda) (row : List Value) :
    cat.evalLambda l.display row = cat.evalLambda l row >>= fun v =>
      if v.isNull && !l.body.ty.isNullable then .error (.nullReference "ToString") else .ok (.string v.text) := by
  refine Eval.evalLambda_body (fun s => ?_) row
  rw [eval, evalReceiver, evalAll, Eval.exec_bind, Eval.exec_bind]
  rcases Eval.exec (cat.eval l.body) s with ⟨e | v, after⟩
  · rfl
  · by_cases hnull : v.isNull && !l.body.ty.isNullable
    · have hreceiver : Eval.receiver l.body.ty Method.display.name v = .error (.nullReference "ToString") :=
        if_pos hnull
      simp only [hreceiver]
      exact (if_pos hnull).symm
    · have hreceiver : Eval.receiver l.body.ty Method.display.name v = .ok v := if_neg hnull
      simp only [hreceiver]
      exact (if_neg hnull).symm

/-- Every expression that compiles with room for one more level of nesting, and whose class, if it has one, declares no
such member, can be asked for its text, unless it is a sequence. Then the text that is asked for is that of its value,
but an absent value fails where the type is not nullable. Of lists, groups and objects that can be iterated it cannot be
asked for: the member is looked for among the operations on their items. -/
theorem Environment.compile_display {env : Environment} {decls : List ParamDecl} {text : String} {args : List Argument}
    {l : Lambda} (h : env.CompilesWithin (maxDepth - 1) decls none text args l)
    (hclass : ∀ c, l.body.ty = .cls c → env.catalog.declaresMethod (.cls c) "ToString" = false) (shapes : Shapes) :
    let displayed := "(" ++ text ++ ").ToString()"
    (env.catalog.elementType? l.body.ty = none →
      ∃ l', ((env.compile decls none displayed args).exec shapes).1 = .ok l' ∧ l'.body.ty = .string ∧
        ∀ row, env.catalog.evalLambda l' row = env.catalog.evalLambda l row >>= fun v =>
          if v.isNull && !l.body.ty.isNullable then .error (.nullReference "ToString") else .ok (.string v.text)) ∧
    ((env.catalog.elementType? l.body.ty).isSome →
      ∃ pos, ((env.compile decls none displayed args).exec shapes).1 =
        .error ⟨.noApplicableAggregate "ToString", pos⟩) := by
  intro displayed
  have hdeclares := env.catalog.declaresMethod_display hclass
  refine ⟨fun hitem => ?_, fun hitem => ?_⟩
  · exact ⟨l.display, (h.display hdeclares hitem).compile_eq_ok shapes, rfl, env.catalog.evalLambda_display l⟩
  · obtain ⟨item, hitem⟩ := Option.isSome_iff_exists.mp hitem
    exact h.refuses_display hdeclares hitem shapes

/-- A quotient of a cell as text. -/
theorem Environment.compile_display_quotient :
    let decls : List ParamDecl := [⟨some "c", .cls .cell⟩]
    let args : List Argument := [.value (.int32 2)]
    ∃ l l', Environment.cells.CompilesWithin (maxDepth - 1) decls none "c.X / @0" args l ∧
      ((Environment.cells.compile decls none "(c.X / @0).ToString()" args).exec .empty).1 = .ok l' ∧
      l'.body.ty = .string ∧ Catalog.cells.evalLambda l' [.object .cell [.int32 (-7)] []] = .ok (.string "-3") := by
  intro decls args
  have hrun : ((Environment.cells.compileWithin (maxDepth - 1) decls none "c.X / @0" args).exec .empty).1.toOption.any
      (fun l => l.body.ty = .int32 && (Catalog.cells.evalLambda l [.object .cell [.int32 (-7)] []]).toOption.any
        fun v => v.text = "-3" && !v.isNull) = true := by
    decide +kernel
  obtain ⟨l, hl, hcheck⟩ := toOption_any.mp hrun
  obtain ⟨hty, hvalue⟩ := Bool.and_eq_true_iff.mp hcheck
  obtain ⟨v, hv, hcheck⟩ := toOption_any.mp hvalue
  obtain ⟨htext, hpresent⟩ := Bool.and_eq_true_iff.mp hcheck
  have hint : l.body.ty = .int32 := of_decide_eq_true hty
  obtain ⟨hdisplay, -⟩ := compile_display ⟨.empty, hl⟩ (fun c hc => by cases hint.symm.trans hc) .empty
  obtain ⟨l', hl', hstring, hvalues⟩ := hdisplay (by rw [hint]; rfl)
  have hvalue : Catalog.cells.evalLambda l' [.object .cell [.int32 (-7)] []] = _ := hvalues _
  have hnull : v.isNull = false := by simpa using hpresent
  refine ⟨l, l', ⟨.empty, hl⟩, hl', hstring, hvalue.trans ?_⟩
  rw [← of_decide_eq_true htext]
  show Catalog.cells.evalLambda l _ >>= _ = _
  rw [hv]
  simp [hnull, bind, Except.bind]

theorem Environment.compile_display_list :
    let decls : List ParamDecl := [⟨none, .list .int32⟩]
    (∃ l, Environment.cells.CompilesWithin (maxDepth - 1) decls none "it" [] l ∧ l.body.ty = .list .int32) ∧
      ∃ e, ((Environment.cells.compile decls none "(it).ToString()" []).exec .empty).1 = .error e ∧
        e.message .empty = "No applicable aggregate method 'ToString' exists (at index 5)" := by
  intro decls
  have hrun : ((Environment.cells.compileWithin (maxDepth - 1) decls none "it" []).exec .empty).1.toOption.any
      (fun l => l.body.ty = .list .int32) = true := by
    decide +kernel
  have hfails : (failure? ((Environment.cells.compile decls none "(it).ToString()" []).exec .empty).1).any (fun e =>
      e.message .empty = "No applicable aggregate method 'ToString' exists (at index 5)") = true := by
    decide +kernel
  obtain ⟨l, hl, hty⟩ := toOption_any.mp hrun
  obtain ⟨e, he, hmessage⟩ := failure?_any.mp hfails
  exact ⟨⟨l, ⟨.empty, hl⟩, of_decide_eq_true hty⟩, e, he, of_decide_eq_true hmessage⟩

end RowQuery
