import RowQuery.Proofs.Phrases

/-!
Names, members and lists at the front of a text. A name stands there with or without a mark, a member after
the dot behind its receiver, and arguments and fields between commas; each is taken from the lexemes that are
left like any other phrase.
-/

namespace RowQuery

open Parse Grammar Lexeme

namespace Grammar

/-! ### Names -/

/-- A name without its mark, if it has one. -/
def unmarked (text : String) : String :=
  if text.toList.head? = some '@' ∧ 2 ≤ text.toList.length then String.ofList text.toList.tail else text

theorem unmarked_of_mark {text : String} {c : Char} {cs : List Char} (h : text.toList = '@' :: c :: cs) :
    unmarked text = String.ofList (c :: cs) := by
  simp [unmarked, h]

theorem unmarked_of_plain {text : String} (h : ∀ c cs, text.toList ≠ '@' :: c :: cs) : unmarked text = text := by
  refine if_neg ?_
  rintro ⟨hhead, hlength⟩
  obtain ⟨cs, hcs⟩ := List.head?_eq_some_iff.mp hhead
  rcases cs with _ | ⟨c, cs⟩
  · rw [hcs, List.length_singleton] at hlength
    omega
  · exact h c cs hcs

theorem exec_identifier (scope : Scope) (s : Reading) :
    exec identifier scope s =
      if s.token.kind = .identifier then (.ok (unmarked s.token.text), s)
      else (.error ⟨.identifierExpected, s.token.pos⟩, s) := by
  have htoken : exec token scope s = (.ok s.token, s) := rfl
  by_cases hkind : s.token.kind = .identifier
  · have hrequire : exec (require .identifier .identifierExpected) scope s = (.ok (), s) :=
      reads_require.mpr ⟨hkind, rfl⟩
    rw [if_pos hkind, identifier, exec_bind, hrequire]
    simp only [exec_bind, htoken]
    split
    · rename_i htext
      rw [unmarked_of_mark htext]
      rfl
    · rename_i hplain
      rw [unmarked_of_plain hplain]
      rfl
  · have hrequire : exec (require .identifier .identifierExpected) scope s =
        (.error ⟨.identifierExpected, s.token.pos⟩, s) := by
      have hat : exec (at? .identifier) scope s = (.ok false, s) :=
        reads_at?.mpr ⟨beq_eq_false_iff_ne.mpr hkind, rfl⟩
      rw [require, exec_bind, hat]
      rfl
    rw [if_neg hkind, identifier, exec_bind, hrequire]

end Grammar

/-- There is a reading in front of any lexemes. -/
theorem Reading.exists_ahead (ls : List Lexeme) (m : Nat × Shapes) : ∃ s : Reading, s.Ahead ls ∧ s.made = m := by
  cases ls with
  | nil => exact ⟨⟨⟨.done, "", 0⟩, [], .finished 0, m.1, m.2⟩, ⟨rfl, rfl, 0, rfl⟩, rfl⟩
  | cons l ls =>
      refine ⟨⟨⟨l.kind, l.text, 0⟩, ls.map fun l => ⟨l.kind, l.text, 0⟩, .finished 0, m.1, m.2⟩, ⟨rfl, ?_, 0, rfl⟩, rfl⟩
      rw [List.map_map]
      exact List.map_id ls

/-- A phrase is read in one way. -/
theorem Takes.reads {α : Type} {p : Parse α} {scope : Scope} {m m' : Nat × Shapes} {ls rest : List Lexeme}
    {a b : α} {s s' : Reading} (h : Takes p scope m ls a m' rest) (hs : s.Ahead (ls ++ rest)) (hm : s.made = m)
    (hread : Reads p scope s b s') : b = a ∧ s'.Ahead rest ∧ s'.made = m' := by
  obtain ⟨u, hu, hlater⟩ := h s hs hm
  obtain ⟨heq, rfl⟩ := Prod.mk.inj (hread.symm.trans hu)
  exact ⟨Except.ok.inj heq, hlater⟩

section

variable {α : Type} {scope : Scope} {ls rest : List Lexeme} {m m' : Nat × Shapes}

/-- A name is looked at and stays at hand. -/
theorem takes_identifier {name : String} :
    Takes identifier scope m [] (unmarked name) m (⟨.identifier, name⟩ :: rest) := by
  intro s hs hm
  have hlexeme : s.token.lexeme = ⟨.identifier, name⟩ := hs.shows
  have hkind : s.token.kind = .identifier := congrArg Lexeme.kind hlexeme
  have htext : s.token.text = name := congrArg Lexeme.text hlexeme
  refine ⟨s, ?_, hs, hm⟩
  rw [Reads, exec_identifier, if_pos hkind, htext]

theorem Takes.identified {name : String} {f : String → Parse α} {a : α}
    (h : Takes (f (unmarked name)) scope m (⟨.identifier, name⟩ :: ls) a m' rest) :
    Takes (identifier >>= f) scope m (⟨.identifier, name⟩ :: ls) a m' rest := takes_identifier.bind h

theorem Takes.seen {f : Scope → Parse α} {a : α} (h : Takes (f scope) scope m ls a m' rest) :
    Takes (read >>= f) scope m ls a m' rest := by
  intro s hs hm
  obtain ⟨s', hs', hlater⟩ := h s hs hm
  exact ⟨s', reads_bind.mpr ⟨scope, s, reads_read.mpr ⟨rfl, rfl⟩, hs'⟩, hlater⟩

end

namespace Grammar

variable {α : Type} {scope : Scope} {inner : Level} {ls ms rest : List Lexeme} {m m' m₁ : Nat × Shapes} {e : Expr}

/-- The implicit parameter is at hand. -/
theorem takes_implicit (h : scope.it = some e) :
    Takes (primaryStart inner) scope m [⟨.identifier, "it"⟩] e m rest := by
  refine Takes.look fun t ht => ?_
  have hlexeme : t.lexeme = ⟨.identifier, "it"⟩ := ht
  have hkind : t.kind = .identifier := congrArg Lexeme.kind hlexeme
  have htext : t.text = "it" := congrArg Lexeme.text hlexeme
  have hfold : Text.fold "it" = "it" := by decide
  simp only [hkind, htext, word, hfold]
  refine Takes.seen ?_
  rw [h]
  exact (takes_pure e).skip

/-! ### Lists -/

section

variable {item : List α → Parse α} {done : List α} {as : List α} {a : α}
  (hleft : ∀ {done s a s'}, Reads (item done) scope s a s' → s'.left < s.left)

include hleft

/-- No item follows where there is no comma. -/
theorem takes_items_nil (hrest : first rest ≠ .comma) :
    Takes (repeatStep (nextItem item) done) scope m [] done m rest := by
  intro s hs hm
  refine ⟨s, (reads_repeatStep (nextItem_left hleft)).mpr (.stop ?_), hs, hm⟩
  refine reads_nextItem.mpr (Or.inr ⟨?_, rfl, rfl⟩)
  rwa [kind_of_shows hs.shows]

/-- An item after a comma, and those after it. -/
theorem takes_items_cons (ha : Takes (item done) scope m ls a m₁ (ms ++ rest))
    (hlater : Takes (repeatStep (nextItem item) (done ++ [a])) scope m₁ ms as m' rest) :
    Takes (repeatStep (nextItem item) done) scope m (comma :: (ls ++ ms)) as m' rest := by
  intro s hs hm
  rw [List.cons_append, List.append_assoc] at hs
  obtain ⟨u, hu, hahead, hmade⟩ := exists_advance scope hs.rest hs.finished
  obtain ⟨v, hv, haheadv, hmadev⟩ := ha u hahead (hmade.trans hm)
  obtain ⟨s', hs', hend⟩ := hlater v haheadv hmadev
  have hnext : Reads (nextItem item done) scope s (some (done ++ [a])) v :=
    reads_nextItem.mpr (Or.inl ⟨kind_of_shows hs.shows, u, a, hu, hv, rfl⟩)
  refine ⟨s', (reads_repeatStep (nextItem_left hleft)).mpr (.next hnext ?_), hend⟩
  exact (reads_repeatStep (nextItem_left hleft)).mp hs'

end

/-! ### Members -/

/-- What reads a phrase reads an operand first; and if nothing continues the operand, it is all that is read. -/
theorem reads_primaryStart_of_reader (hinner : inner.Derived) (k : Nat) {s s' : Reading} {e : Expr}
    (h : Reads (reader inner k) scope s e s') (hop : unaryOperator? s.token = none) :
    ∃ a u, Reads (primaryStart inner) scope s a u ∧
      ∀ rest, u.Ahead rest → Stops k rest → e = a ∧ s'.Ahead rest := by
  rcases Nat.lt_or_ge k 6 with hlt | hge
  · have hoperand : ∃ b v, Reads (reader inner (k + 1)) scope s b v ∧
        ∀ rest, v.Ahead rest → Stops k rest → e = b ∧ s'.Ahead rest := by
      cases k with
      | zero =>
          obtain ⟨_, _, ht, h⟩ := reads_bind.mp h
          obtain ⟨rfl, rfl⟩ := reads_token.mp ht
          obtain ⟨b, v, hb, h⟩ := reads_bind.mp h
          refine ⟨b, v, hb, fun rest hv hstops => ?_⟩
          obtain ⟨_, _, hat, h⟩ := reads_bind.mp h
          obtain ⟨rfl, rfl⟩ := reads_at?.mp hat
          rcases reads_ite.mp h with ⟨hquestion, -⟩ | ⟨-, hpure⟩
          · exact absurd ((kind_of_shows hv.shows).symm.trans (beq_iff_eq.mp hquestion)) (hstops.question rfl)
          · obtain ⟨rfl, rfl⟩ := reads_pure.mp hpure
            exact ⟨rfl, hv⟩
      | succ k =>
          obtain ⟨b, v, hb, h⟩ := (reads_reader hinner (by omega)).mp h
          refine ⟨b, v, hb, fun rest hv hstops => ?_⟩
          have hnone := hstops.operator (k + 1) (Nat.le_refl _) _ hv.shows
          cases h with
          | stop hstop =>
              rcases reads_nextOperand.mp hstop with ⟨_, _, _, _, _, _, _, _, _, hsome⟩ | ⟨_, _, rfl⟩
              · cases hsome
              · exact ⟨rfl, hv⟩
          | next hnext _ =>
              rcases reads_nextOperand.mp hnext with ⟨_, _, _, _, _, hoperator, _⟩ | ⟨_, hsome, _⟩
              · rw [hnone] at hoperator
                cases hoperator
              · cases hsome
    obtain ⟨b, v, hb, hlast⟩ := hoperand
    obtain ⟨a, u, ha, hfirst⟩ := reads_primaryStart_of_reader hinner (k + 1) hb hop
    refine ⟨a, u, ha, fun rest hu hstops => ?_⟩
    obtain ⟨rfl, hv⟩ := hfirst rest hu (hstops.mono (Nat.le_succ k))
    exact hlast rest hv hstops
  · rw [reader_eq_unary hge] at h
    obtain ⟨_, _, ht, h⟩ := reads_bind.mp h
    obtain ⟨rfl, rfl⟩ := reads_token.mp ht
    rw [hop] at h
    obtain ⟨a, u, ha, hmembers⟩ := reads_bind.mp h
    refine ⟨a, u, ha, fun rest hu hstops => ?_⟩
    obtain ⟨heq, hahead, -⟩ := (takes_members_nil hinner hstops.tight).reads hu rfl hmembers
    exact ⟨heq, hahead⟩
termination_by 6 - k

/-- An expression does not start with a closing bracket. -/
theorem kind_of_reads_reader (hinner : inner.Derived) (k : Nat) {s s' : Reading}
    (h : Reads (reader inner k) scope s e s') : s.token.kind ≠ .closeParen := by
  intro hkind
  have hnone : unaryOperator? s.token = none := by simp [unaryOperator?, Token.isWord, hkind]
  obtain ⟨a, u, hstart, -⟩ := reads_primaryStart_of_reader hinner k h hnone
  obtain ⟨_, _, ht, hstart⟩ := reads_bind.mp hstart
  obtain ⟨rfl, rfl⟩ := reads_token.mp ht
  simp only [hkind] at hstart
  exact absurd hstart reads_fail

theorem kind_of_reads_expression {n : Nat} {s s' : Reading} (h : Reads (level n).expression scope s e s') :
    s.token.kind ≠ .closeParen := by
  cases n with
  | zero => exact absurd h reads_fail
  | succ n => exact kind_of_reads_reader (level_derived n) 0 h

section

variable {n : Nat} {args : List Expr}

theorem takes_oneArgument (h : Takes (level n).expression scope m ls e m' rest) (hrest : first rest ≠ .comma) :
    Takes (arguments (level n)) scope m ls [e] m' rest :=
  h.last (takes_items_nil (fun h => ((level_derived n).expression h).2) hrest)

theorem takes_twoArguments {e₂ : Expr} (h : Takes (level n).expression scope m ls e m₁ (comma :: ms ++ rest))
    (h₂ : Takes (level n).expression scope m₁ ms e₂ m' rest) (hrest : first rest ≠ .comma) :
    Takes (arguments (level n)) scope m (ls ++ comma :: ms) [e, e₂] m' rest := by
  have hleft : ∀ {s a s'}, Reads (level n).expression scope s a s' → s'.left < s.left :=
    fun h => ((level_derived n).expression h).2
  have hlater : Takes (repeatStep (nextItem fun _ => (level n).expression) [e]) scope m₁ (comma :: ms)
      [e, e₂] m' rest := by
    rw [← List.append_nil ms]
    exact takes_items_cons (fun h => hleft h) h₂ (takes_items_nil (fun h => hleft h) hrest)
  exact Takes.bind h hlater

/-- Arguments in parentheses. -/
theorem takes_argumentList (h : Takes (arguments (level n)) scope m ls args m' (closeParen :: rest)) :
    Takes (argumentList (level n)) scope m (openParen :: (ls ++ [closeParen])) args m' rest := by
  have hfirst : first (ls ++ [closeParen] ++ rest) ≠ .closeParen := by
    rw [List.append_assoc]
    obtain ⟨s, hs, hm⟩ := Reading.exists_ahead (ls ++ closeParen :: rest) m
    obtain ⟨s', hs', -⟩ := h s hs hm
    obtain ⟨_, _, hargument, -⟩ := reads_bind.mp hs'
    exact fun hkind => kind_of_reads_expression hargument ((kind_of_shows hs.shows).trans hkind)
  exact Takes.expected rfl (Takes.ifNotAt hfirst (h.bind ((takes_pure args).expected rfl)))

end

/-- No arguments in parentheses. -/
theorem takes_argumentList_nil : Takes (argumentList inner) scope m [openParen, closeParen] [] m rest := by
  have hclose : Takes (expect .closeParen .closeParenOrCommaExpected >>= fun _ => pure ([] : List Expr)) scope m
      [closeParen] [] m rest := (takes_pure []).expected rfl
  exact Takes.expected rfl (Takes.ifAt rfl ((takes_pure []).bind hclose))

/-- A reader takes an operand up to some of its members, and is ready for another one. -/
def TakesMembers (inner : Level) (scope : Scope) (m : Nat × Shapes) (ls : List Lexeme) (e : Expr)
    (m' : Nat × Shapes) (rest : List Lexeme) : Prop :=
  ∀ s : Reading, s.Ahead (ls ++ rest) → s.made = m → ∃ a u s', Reads (primaryStart inner) scope s a u ∧
    (∀ z final, Iterates (nextMember inner) scope e s' z final → Iterates (nextMember inner) scope a u z final) ∧
    s'.Ahead rest ∧ s'.made = m'

namespace TakesMembers

variable {receiver : Expr}

theorem of_start (h : Takes (primaryStart inner) scope m ls e m' rest) : TakesMembers inner scope m ls e m' rest := by
  intro s hs hm
  obtain ⟨s', hs', hlater⟩ := h s hs hm
  exact ⟨e, s', s', hs', fun _ _ h => h, hlater⟩

theorem next (h : TakesMembers inner scope m ls receiver m₁ (ms ++ rest))
    (hnext : Takes (nextMember inner receiver) scope m₁ ms (some e) m' rest) :
    TakesMembers inner scope m (ls ++ ms) e m' rest := by
  intro s hs hm
  rw [List.append_assoc] at hs
  obtain ⟨a, u, v, ha, hsteps, hahead, hmade⟩ := h s hs hm
  obtain ⟨s', hs', hlater⟩ := hnext v hahead hmade
  exact ⟨a, u, s', ha, fun z final hfinal => hsteps z final (.next hs' hfinal), hlater⟩

theorem takes (hinner : inner.Derived) (h : TakesMembers inner scope m ls e m' rest) (hstops : Stops 6 rest) :
    Takes (primary inner) scope m ls e m' rest := by
  intro s hs hm
  obtain ⟨a, u, v, ha, hsteps, hahead, hmade⟩ := h s hs hm
  obtain ⟨s', hs', hlater⟩ := takes_members_nil hinner hstops v hahead hmade
  have hmembers := hsteps e s' ((reads_repeatStep (nextMember_left hinner)).mp hs')
  exact ⟨s', reads_bind.mpr ⟨a, u, ha, (reads_repeatStep (nextMember_left hinner)).mpr hmembers⟩, hlater⟩

end TakesMembers

theorem takes_nextMember {receiver : Expr} (h : Takes (member inner (.value receiver)) scope m ls e m' rest) :
    Takes (nextMember inner receiver) scope m (dot :: ls) (some e) m' rest := by
  refine Takes.look fun t ht => ?_
  have hkind : t.kind = .dot := kind_of_shows ht
  simp only [hkind]
  exact Takes.skip (h.last (takes_pure (some e)))

theorem takes_nextElement {receiver : Expr} {n : Nat} {args : List Expr}
    (h : Takes (arguments (level n)) scope m ls args m' (closeBracket :: rest))
    (htyped : Typing.element scope.catalog receiver args = .ok e) :
    Takes (nextMember (level n) receiver) scope m (openBracket :: (ls ++ [closeBracket])) (some e) m' rest := by
  refine Takes.look fun t ht => ?_
  have hkind : t.kind = .openBracket := kind_of_shows ht
  simp only [hkind]
  refine Takes.last (Takes.look fun t _ => Takes.skip (h.bind ?_)) (takes_pure (some e))
  exact (takes_typed htyped).expected rfl

/-- A member of an operand. -/
theorem takes_primary_member (hinner : inner.Derived) {receiver : Expr}
    (h : Takes (primaryStart inner) scope m ls receiver m₁ (dot :: ms ++ rest))
    (hmember : Takes (member inner (.value receiver)) scope m₁ ms e m' rest) (hstops : Stops 6 rest) :
    Takes (primary inner) scope m (ls ++ dot :: ms) e m' rest :=
  ((TakesMembers.of_start h).next (takes_nextMember hmember)).takes hinner hstops

theorem unaryOperator?_implicit {t : Token} (h : t.Shows (⟨.identifier, "it"⟩ :: ls)) : unaryOperator? t = none := by
  have hlexeme : t.lexeme = ⟨.identifier, "it"⟩ := h
  have hkind : t.kind = .identifier := congrArg Lexeme.kind hlexeme
  have htext : t.text = "it" := congrArg Lexeme.text hlexeme
  have hword : t.isWord "not" = false := by
    rw [Token.isWord, hkind, htext]
    decide
  simp [unaryOperator?, hkind, hword]

/-- A member of the implicit parameter. -/
theorem takes_implicit_member {n : Nat} {receiver : Expr} (hit : scope.it = some receiver)
    (h : Takes (member (level n) (.value receiver)) scope m ls e m' rest) (hstops : Stops 0 rest) :
    Takes (level (n + 1)).expression scope m (⟨.identifier, "it"⟩ :: dot :: ls) e m' rest := by
  have hprimary := takes_primary_member (level_derived n) (takes_implicit hit) h hstops.tight
  have hoperand : Takes (reader (level n) 6) _ _ _ _ _ rest :=
    takes_unary_of_primary hprimary fun _ => unaryOperator?_implicit
  exact takes_descend (level_derived n) hoperand (Nat.zero_le 6) hstops

/-- A property, where no argument follows the name. -/
theorem takes_property {receiver : Typing.Receiver} {name : String} (hrest : first rest ≠ .openParen)
    (h : Typing.property scope.catalog receiver (unmarked name) = .ok e) :
    Takes (member inner receiver) scope m [⟨.identifier, name⟩] e m rest := by
  refine Takes.look fun t _ => Takes.identified (Takes.skip ?_)
  exact Takes.ifNotAt hrest (takes_typed h)

/-- A call of a method. -/
theorem takes_methodCall {receiver : Typing.Receiver} {name : String} {args : List Expr}
    (hargs : Takes (argumentList inner) scope m (openParen :: ls) args m' rest)
    (hitem : receiver.aggregated? scope.catalog (unmarked name) = none)
    (h : Typing.methodCall scope.catalog receiver (unmarked name) args = .ok e) :
    Takes (member inner receiver) scope m (⟨.identifier, name⟩ :: openParen :: ls) e m' rest := by
  refine Takes.look fun t _ => Takes.identified (Takes.skip (Takes.ifAt rfl (Takes.seen ?_)))
  rw [hitem]
  exact hargs.last (takes_typed h)

/-- An operation on the items of a sequence, whose arguments see each item. -/
theorem takes_itemwise {source : Expr} {item : Ty} {name : String} {args : List Expr} {slot : Nat} {made : Shapes}
    (hitem : (Typing.Receiver.value source).aggregated? scope.catalog (unmarked name) = some item)
    (hargs : Takes (argumentList inner) { scope with it := some (.param item slot) } (slot + 1, made) (openParen :: ls)
      args m' rest)
    (h : Typing.aggregate scope.catalog source slot (unmarked name) args = .ok e) :
    Takes (member inner (.value source)) scope (slot, made) (⟨.identifier, name⟩ :: openParen :: ls) e m' rest := by
  refine Takes.look fun t _ => Takes.identified (Takes.skip (Takes.ifAt rfl (Takes.seen ?_)))
  rw [hitem]
  intro s hs hm
  obtain ⟨hslots, hshapes⟩ := Prod.mk.inj hm
  have hslot : Reads newSlot scope s slot { s with slots := slot + 1 } :=
    reads_newSlot.mpr ⟨hslots, by rw [hslots]⟩
  obtain ⟨s', hs', hahead, hmade⟩ := hargs { s with slots := slot + 1 }
    ⟨hs.shows, hs.rest, hs.finished⟩ (Prod.ext rfl hshapes)
  refine ⟨s', reads_bind.mpr ⟨slot, _, hslot, reads_bind.mpr ⟨args, s', hs', ?_⟩⟩, hahead, hmade⟩
  exact reads_typed.mpr ⟨h, rfl⟩

/-- An operation on the items of a sequence with one argument. -/
theorem takes_aggregate {source argument : Expr} {item : Ty} {name : String} {n slot : Nat} {made : Shapes}
    (hitem : (Typing.Receiver.value source).aggregated? scope.catalog (unmarked name) = some item)
    (hargument : Takes (level n).expression { scope with it := some (.param item slot) } (slot + 1, made) ls
      argument m' (closeParen :: rest))
    (h : Typing.aggregate scope.catalog source slot (unmarked name) [argument] = .ok e) :
    Takes (member (level n) (.value source)) scope (slot, made)
      (⟨.identifier, name⟩ :: openParen :: (ls ++ [closeParen])) e m' rest :=
  takes_itemwise hitem (takes_argumentList (takes_oneArgument hargument (by simp [first, closeParen]))) h

end Grammar

end RowQuery
