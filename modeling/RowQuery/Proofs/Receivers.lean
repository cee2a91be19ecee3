import RowQuery.Proofs.MemberPhrases
import RowQuery.Proofs.Parentheses

/-!
Operands before a member. An operand with its members, read to the end of a text, is read in front of a dot in the
same way and may have another member there. Its last lexeme is a name, a quoted text or a closing bracket, and no
number unless the text is nothing else; so the dot does not become part of it.
-/

namespace RowQuery

open Parse Grammar Lexeme
open RowQuery.Expr (mapSlots)

/-! ### The last lexeme -/

namespace Graft

variable {α β : Type} {g : Graft} {P : Reading → Prop} {scope : Scope} {s s' t : Reading} {inner inner' : Level}
  {e : Expr}

/-- If the text is at its end, a dot does not continue its last lexeme. -/
def Dotted (g : Graft) (s : Reading) : Prop :=
  s.token.kind = .done → ∀ k ∈ g.kinds.getLast?, continues k '.' = false

theorem Carries.mirrors {φ : α → β} {p : Parse α} {q : Parse β} {a : α} (h : g.Carries P scope φ p q s t)
    (hread : Reads p scope s a s') (hP : P s') : ∃ t', g.Mirrors s' t' := by
  obtain ⟨t', -, ht⟩ := h a s' hread hP
  exact ⟨t', ht⟩

/-- The token that is passed last is the last one of the text. -/
theorem Mirrors.dotted (h : g.Mirrors s t) (hs : s.Inside) (hkind : continues s.token.kind '.' = false) {u : Unit}
    (hadvance : Reads advance scope s u s') : g.Dotted s' := by
  intro hdone k hk
  have hnil : s.rest = [] := by
    rcases reads_advance_iff.mp hadvance with ⟨v, vs, hvs, rfl⟩ | ⟨_, hnil, _, _⟩
    · exact absurd hdone (h.proper v (by simp [hvs]))
    · exact hnil
  have hplace := h.place
  rw [Reading.kinds, Reading.remaining, if_neg hs, hnil] at hplace
  obtain ⟨before, hbefore⟩ : [s.token.kind] <:+ g.kinds := hplace
  rw [← hbefore, List.getLast?_concat] at hk
  cases hk
  exact hkind

/-- A phrase in brackets ends with the closing one. -/
theorem Mirrors.dotted_of_expect (h : g.Mirrors s t) {k : TokenKind} {fault : Fault} {u : Unit} (hk : k ≠ .done)
    (hdot : continues k '.' = false) (hread : Reads (expect k fault) scope s u s') : g.Dotted s' := by
  obtain ⟨rfl, hadvance⟩ := reads_expect.mp hread
  exact h.dotted hk hdot hadvance

theorem Mirrors.advanced (h : g.Mirrors s t) (hs : s.Inside) {u : Unit} (hadvance : Reads advance scope s u s') :
    ∃ t', g.Mirrors s' t' :=
  (carries_advance (P := fun _ => True) h hs).mirrors hadvance trivial

/-- What takes up one name ends with it. -/
theorem dotted_leaf {e' : Expr} (h : g.Mirrors s t) (hs : s.Inside) (hkind : continues s.token.kind '.' = false)
    (hread : Reads (do advance; return e) scope s e' s') : g.Dotted s' := by
  simp only [reads_bind, reads_pure] at hread
  obtain ⟨_, _, hadvance, -, rfl⟩ := hread
  exact h.dotted hs hkind hadvance

section

variable (hinner : g.Levels inner inner') (hscope : g.Fixes scope) (h : g.Mirrors s t)

include hinner hscope h

theorem dotted_argumentList {args : List Expr} (hread : Reads (argumentList inner) scope s args s') : g.Dotted s' := by
  obtain ⟨_, m, hopen, hread⟩ := reads_bind.mp hread
  obtain ⟨hkind, hopen⟩ := reads_expect.mp hopen
  obtain ⟨m', hm⟩ := h.advanced (by simp [Reading.Inside, hkind]) hopen
  obtain ⟨found, _, hat, hread⟩ := reads_bind.mp hread
  obtain ⟨-, rfl⟩ := reads_at?.mp hat
  have hclose : ∀ {p : Parse (List Expr)}, (∀ args v, Reads p scope m args v → v.Inside → ∃ v', g.Mirrors v v') →
      Reads (do let args ← p; expect .closeParen .closeParenOrCommaExpected; return args) scope m args s' →
      g.Dotted s' := by
    intro p hp hread
    obtain ⟨args, v, hargs, hread⟩ := reads_bind.mp hread
    obtain ⟨_, w, hexpect, hpure⟩ := reads_bind.mp hread
    obtain ⟨rfl, rfl⟩ := reads_pure.mp hpure
    obtain ⟨v', hv⟩ := hp args v hargs (by simp [Reading.Inside, (reads_expect.mp hexpect).1])
    exact hv.dotted_of_expect (by decide) (by decide) hexpect
  cases found with
  | true =>
      refine hclose (fun args v hpure _ => ?_) hread
      obtain ⟨-, rfl⟩ := reads_pure.mp hpure
      exact ⟨m', hm⟩
  | false => exact hclose (fun args v => (carries_arguments hinner hscope hm).mirrors) hread

theorem dotted_member {receiver : Typing.Receiver} (hread : Reads (member inner receiver) scope s e s') :
    g.Dotted s' := by
  simp only [member, reads_bind, reads_token, reads_at?] at hread
  obtain ⟨_, _, ⟨rfl, rfl⟩, name, _, hname, _, m, hadvance, found, _, ⟨-, rfl⟩, hread⟩ := hread
  obtain ⟨hkind, rfl⟩ := identifier_reads hname
  have hs : s.Inside := by simp [Reading.Inside, hkind]
  obtain ⟨m', hm⟩ := h.advanced hs hadvance
  rcases reads_ite.mp hread with ⟨-, hread⟩ | ⟨-, hread⟩
  · simp only [reads_bind, reads_read] at hread
    obtain ⟨_, _, ⟨rfl, rfl⟩, hread⟩ := hread
    split at hread
    · rename_i item source _ _
      simp only [reads_bind, reads_withReader, reads_typed] at hread
      obtain ⟨slot, u, hslot, args, _, hargs, -, rfl⟩ := hread
      obtain ⟨u', hu⟩ := (carries_newSlot (P := fun _ => True) hm).mirrors hslot trivial
      have hitem : g.Fixes { scope with it := some (.param item slot) } := hscope
      exact dotted_argumentList hinner hitem hu hargs
    · simp only [reads_bind, reads_typed] at hread
      obtain ⟨args, _, hargs, -, rfl⟩ := hread
      exact dotted_argumentList hinner hscope hm hargs
  · obtain ⟨-, rfl⟩ := reads_typed.mp hread
    exact h.dotted hs (by rw [hkind]; decide) hadvance

theorem dotted_nextMember {next : Expr} (hread : Reads (nextMember inner e) scope s (some next) s') : g.Dotted s' := by
  have hs := inside_of_member hread
  simp only [nextMember, reads_bind, reads_token] at hread
  obtain ⟨_, _, ⟨rfl, rfl⟩, hread⟩ := hread
  split at hread
  · simp only [reads_bind, reads_pure] at hread
    obtain ⟨_, m, hadvance, _, _, hmember, -, rfl⟩ := hread
    obtain ⟨m', hm⟩ := h.advanced hs hadvance
    exact dotted_member hinner hscope hm hmember
  · simp only [element, reads_bind, reads_token, reads_pure, reads_typed] at hread
    obtain ⟨_, _, ⟨_, _, ⟨rfl, rfl⟩, _, m, hadvance, args, v, hargs, _, _, hexpect, -, rfl⟩, -, rfl⟩ := hread
    obtain ⟨m', hm⟩ := h.advanced hs hadvance
    obtain ⟨v', hv⟩ := (carries_arguments hinner hscope hm).mirrors hargs
      (by simp [Reading.Inside, (reads_expect.mp hexpect).1])
    exact hv.dotted_of_expect (by decide) (by decide) hexpect
  · cases (reads_pure.mp hread).1

theorem dotted_typeAccess (hs : s.Inside) {ty : Ty} (hread : Reads (typeAccess inner ty) scope s e s') :
    g.Dotted s' := by
  simp only [typeAccess, reads_bind, reads_token, reads_at?] at hread
  obtain ⟨_, _, ⟨rfl, rfl⟩, _, m, hadvance, form, n, hform, found, _, ⟨-, rfl⟩, hread⟩ := hread
  obtain ⟨m', hm⟩ := h.advanced hs hadvance
  obtain ⟨n', hn⟩ := (carries_typeForm (P := fun _ => True) _ 0 ty hm).mirrors hform trivial
  rcases reads_ite.mp hread with ⟨-, hread⟩ | ⟨-, hread⟩
  · simp only [reads_bind, reads_typed] at hread
    obtain ⟨args, _, hargs, -, rfl⟩ := hread
    exact dotted_argumentList hinner hscope hn hargs
  · obtain ⟨_, o, hdot, hmember⟩ := reads_bind.mp hread
    obtain ⟨hkind, hdot⟩ := reads_expect.mp hdot
    have hinside : n.Inside := by simp [Reading.Inside, hkind]
    obtain ⟨o', ho⟩ := hn.advanced hinside hdot
    exact dotted_member hinner hscope ho hmember

theorem dotted_named (hkind : s.token.kind = .identifier) {text : String}
    (hread : Reads (named inner text) scope s e s') : g.Dotted s' := by
  have hs : s.Inside := by simp [Reading.Inside, hkind]
  simp only [named, reads_bind, reads_read] at hread
  obtain ⟨_, _, ⟨rfl, rfl⟩, hread⟩ := hread
  split at hread
  · exact dotted_typeAccess hinner hscope h hs hread
  · split at hread
    · exact dotted_leaf h hs (by rw [hkind]; decide) hread
    · simp only [reads_bind, reads_token, reads_typed] at hread
      obtain ⟨_, _, ⟨rfl, rfl⟩, _, m, hadvance, args, _, hargs, -, rfl⟩ := hread
      obtain ⟨m', hm⟩ := h.advanced hs hadvance
      exact dotted_argumentList hinner hscope hm hargs
    · exact dotted_member hinner hscope h hread
    · exact absurd hread reads_fail

theorem dotted_projection (hs : s.Inside) (hread : Reads (projection inner) scope s e s') : g.Dotted s' := by
  simp only [projection, reads_bind, reads_modify, reads_pure] at hread
  obtain ⟨_, m, hadvance, _, n, hopen, fields, v, hfields, _, w, hclose, _, _, rfl, -, rfl⟩ := hread
  obtain ⟨hkind, hopen⟩ := reads_expect.mp hopen
  have hinside : m.Inside := by simp [Reading.Inside, hkind]
  obtain ⟨m', hm⟩ := h.advanced hs hadvance
  obtain ⟨n', hn⟩ := hm.advanced hinside hopen
  obtain ⟨v', hv⟩ := (carries_fields hinner hscope hn).mirrors hfields
    (by simp [Reading.Inside, (reads_expect.mp hclose).1])
  have hw : g.Dotted w := hv.dotted_of_expect (by decide) (by decide) hclose
  exact hw

theorem dotted_word (hkind : s.token.kind = .identifier) {text : String}
    (hread : Reads (word inner text) scope s e s') : g.Dotted s' := by
  have hs : s.Inside := by simp [Reading.Inside, hkind]
  have hname : continues s.token.kind '.' = false := by
    rw [hkind]
    decide
  unfold word at hread
  split at hread
  · exact dotted_leaf h hs hname hread
  · exact dotted_leaf h hs hname hread
  · exact dotted_leaf h hs hname hread
  · simp only [implicit, reads_bind, reads_read] at hread
    obtain ⟨_, _, ⟨rfl, rfl⟩, hread⟩ := hread
    split at hread
    · exact dotted_leaf h hs hname hread
    · exact absurd hread reads_fail
  · simp only [conditionalCall, reads_bind, reads_token] at hread
    obtain ⟨_, _, ⟨rfl, rfl⟩, _, m, hadvance, args, v, hargs, hread⟩ := hread
    obtain ⟨m', hm⟩ := h.advanced hs hadvance
    have hv := dotted_argumentList hinner hscope hm hargs
    split at hread
    · obtain ⟨-, rfl⟩ := reads_typed.mp hread
      exact hv
    · exact absurd hread reads_throw
  · exact dotted_projection hinner hscope h hs hread
  · exact dotted_named hinner hscope h hkind hread

/-- Only a number ends with one. -/
theorem dotted_primaryStart (hread : Reads (primaryStart inner) scope s e s')
    (hnumber : s.token.kind ≠ .integerLiteral ∧ s.token.kind ≠ .realLiteral) : g.Dotted s' := by
  simp only [primaryStart, reads_bind, reads_token] at hread
  obtain ⟨_, _, ⟨rfl, rfl⟩, hread⟩ := hread
  split at hread <;> rename_i hkind
  · exact dotted_word hinner hscope h hkind hread
  · unfold literal at hread
    split at hread
    · exact dotted_leaf h (by simp [Reading.Inside, hkind]) (by rw [hkind]; decide) hread
    · exact absurd hread reads_fail
  · exact absurd hkind hnumber.1
  · exact absurd hkind hnumber.2
  · simp only [reads_bind, reads_pure] at hread
    obtain ⟨_, m, hadvance, _, v, he, _, _, hclose, -, rfl⟩ := hread
    have hs : s.Inside := by simp [Reading.Inside, hkind]
    obtain ⟨m', hm⟩ := h.advanced hs hadvance
    obtain ⟨v', hv⟩ := (carries_inner hinner hscope hm).mirrors he
      (by simp [Reading.Inside, (reads_expect.mp hclose).1])
    exact hv.dotted_of_expect (by decide) (by decide) hclose
  · exact absurd hread reads_fail

end

end Graft

/-! ### Operands with their members -/

namespace Grammar

/-- An operand without a sign before it. -/
def unsigned (inner : Level) : Parse Expr := do
  match unaryOperator? (← token) with
  | none => primary inner
  | some _ => fail .expressionExpected

/-- An operand is read with some of its members, and it is left open whether another one follows. -/
inductive Opened (inner : Level) (scope : Scope) : Reading → Expr → Reading → Prop
  | start {s s' : Reading} {e : Expr} (hsign : unaryOperator? s.token = none)
      (h : Reads (primaryStart inner) scope s e s') : Opened inner scope s e s'
  | next {s m s' : Reading} {receiver e : Expr} (h : Opened inner scope s receiver m)
      (hnext : Reads (nextMember inner receiver) scope m (some e) s') : Opened inner scope s e s'

variable {inner inner' : Level} {scope : Scope} {s s' t : Reading} {e : Expr}

theorem reads_unsigned : Reads (unsigned inner) scope s e s' ↔
    unaryOperator? s.token = none ∧ Reads (primary inner) scope s e s' := by
  simp only [unsigned, reads_bind, reads_token]
  constructor
  · rintro ⟨_, _, ⟨rfl, rfl⟩, h⟩
    split at h
    · rename_i hsign
      exact ⟨hsign, h⟩
    · exact absurd h reads_fail
  · rintro ⟨hsign, h⟩
    refine ⟨_, _, ⟨rfl, rfl⟩, ?_⟩
    rwa [hsign]

/-- By itself it is an operand like any other. -/
theorem reads_unary_of_unsigned (h : Reads (unsigned inner) scope s e s') : Reads (unary inner) scope s e s' := by
  obtain ⟨hsign, h⟩ := reads_unsigned.mp h
  refine reads_bind.mpr ⟨_, _, reads_token.mpr ⟨rfl, rfl⟩, ?_⟩
  rwa [hsign]

namespace Opened

theorem of_reads (hinner : inner.Derived) (hread : Reads (unsigned inner) scope s e s') :
    Opened inner scope s e s' := by
  obtain ⟨hsign, h⟩ := reads_unsigned.mp hread
  obtain ⟨a, m, ha, hlater⟩ := reads_bind.mp h
  have hsteps := (reads_repeatStep (nextMember_left hinner)).mp hlater
  have hopened : Opened inner scope s a m := .start hsign ha
  clear hread hlater ha h hsign
  induction hsteps with
  | stop hnone =>
      obtain ⟨-, rfl⟩ := reads_nextMember_none.mp hnone
      exact hopened
  | next hsome _ ih => exact ih (hopened.next hsome)

theorem unsigned (h : Opened inner scope s e s') : unaryOperator? s.token = none := by
  induction h with
  | start hsign _ => exact hsign
  | next _ _ ih => exact ih

theorem exists_start (h : Opened inner scope s e s') : ∃ a u, Reads (primaryStart inner) scope s a u ∧
    ∀ z final, Iterates (nextMember inner) scope e s' z final → Iterates (nextMember inner) scope a u z final := by
  induction h with
  | start _ h => exact ⟨_, _, h, fun _ _ hlater => hlater⟩
  | next _ hnext ih =>
      obtain ⟨a, u, ha, hsteps⟩ := ih
      exact ⟨a, u, ha, fun z final hlater => hsteps z final (.next hnext hlater)⟩

/-- An operand starts with a name, a literal or an opening bracket. -/
theorem kind (h : Opened inner scope s e s') :
    s.token.kind ∈ ([.identifier, .stringLiteral, .integerLiteral, .realLiteral, .openParen] : List TokenKind) := by
  obtain ⟨a, u, ha, -⟩ := h.exists_start
  obtain ⟨_, _, htoken, ha⟩ := reads_bind.mp ha
  obtain ⟨rfl, rfl⟩ := reads_token.mp htoken
  split at ha
  case h_6 => exact absurd ha reads_fail
  all_goals simp [*]

theorem inside (h : Opened inner scope s e s') : s.Inside := by
  intro hdone
  have hkind := h.kind
  simp [hdone] at hkind

end Opened

/-- An operand with some of its members is read in front of anything that may come after a text. -/
theorem opened_portable {n m : Nat} (hnm : n ≤ m) :
    Portable (fun _ => True) (fun f e => e.mapSlots f) (Opened (level n)) (Opened (level m)) := by
  intro g scope s t s' e hscope hmirrors hread _
  have hinner := g.levels hnm
  induction hread with
  | start hsign h =>
      have hs : s.Inside := (Opened.start hsign h).inside
      obtain ⟨t', ht', hmirrors'⟩ :=
        Graft.carries_primaryStart (P := fun _ => True) hinner hscope hmirrors _ _ h trivial
      refine ⟨t', .start ?_ ht', hmirrors'⟩
      rwa [Graft.unaryOperator?_congr (hmirrors.lexeme hs)]
  | next _ hnext ih =>
      obtain ⟨u, hu, hbetween⟩ := ih fun _ => trivial
      obtain ⟨t', ht', hmirrors'⟩ := Graft.carries_nextMember_inside (P := fun _ => True) hinner hscope _ hbetween
        (Graft.inside_of_member hnext) _ _ hnext trivial
      exact ⟨t', .next hu ht', hmirrors'⟩

/-- A literal number is no list. -/
theorem kind_of_list {item : Ty} (hread : Reads (primaryStart inner) scope s e s') (hty : e.ty = .list item) :
    s.token.kind ≠ .integerLiteral ∧ s.token.kind ≠ .realLiteral := by
  simp only [primaryStart, reads_bind, reads_token] at hread
  obtain ⟨_, _, ⟨rfl, rfl⟩, hread⟩ := hread
  have hliteral : ∀ {reading : Option Expr} {fault : Fault}, Reads (literal reading fault) scope s e s' →
      reading = some e := by
    intro reading fault hread
    unfold literal at hread
    split at hread
    · simp only [reads_bind, reads_pure] at hread
      obtain ⟨_, _, _, rfl, _⟩ := hread
      rfl
    · exact absurd hread reads_fail
  constructor
  · intro hkind
    simp only [hkind] at hread
    obtain ⟨k, w, rfl, -⟩ := integerLiteral?_eq_some (hliteral hread)
    cases hty
  · intro hkind
    simp only [hkind] at hread
    have hreal := hliteral hread
    unfold realLiteral? at hreal
    split at hreal <;>
    · obtain ⟨x, -, rfl⟩ := Option.map_eq_some_iff.mp hreal
      cases hty

/-- An operand that is a list does not end with a number. -/
theorem Opened.dotted {g : Graft} {n : Nat} {item : Ty} (hscope : g.Fixes scope) (hm : g.Mirrors s t)
    (h : Opened (level n) scope s e s') (hty : e.ty = .list item) : g.Dotted s' := by
  have hinner := g.levels (Nat.le_refl n)
  cases h with
  | start _ h => exact Graft.dotted_primaryStart hinner hscope hm h (kind_of_list h hty)
  | next h hnext =>
      obtain ⟨u, -, hu⟩ := opened_portable (Nat.le_refl n) g hscope hm h fun _ => trivial
      exact Graft.dotted_nextMember hinner hscope hu hnext

end Grammar

/-! ### Operands as texts -/

/-- A text that starts with a sign of equality starts with that lexeme, or with the sign written twice. -/
theorem Scans.kind_of_equal {cs : List Char} {l : Lexeme} {ls : List Lexeme} (h : Scans ('=' :: cs) (l :: ls)) :
    l.kind = .equal ∨ l.kind = .doubleEqual := by
  have hblank : ∀ c ∈ ([] : List Char), Text.isBlank c := by simp
  have hskip : Cursor.skipBlank ⟨0, '=' :: cs⟩ = ⟨0, '=' :: cs⟩ := Cursor.skipBlank_append hblank (by decide) 0
  obtain ⟨k, n, hread, hk⟩ : ∃ k n, read '=' cs = (.ok k, n) ∧ (k = .equal ∨ k = .doubleEqual) := by
    rcases cs with _ | ⟨c, cs⟩
    · exact ⟨.equal, 0, rfl, Or.inl rfl⟩
    · by_cases hc : c = '='
      · exact ⟨.doubleEqual, 1, if_pos hc, Or.inr rfl⟩
      · exact ⟨.equal, 0, if_neg hc, Or.inl rfl⟩
  obtain ⟨hlexemes, -⟩ := h 0
  rw [Cursor.scan_of_cons hskip hread] at hlexemes
  obtain ⟨rfl, -⟩ := List.cons.inj hlexemes
  exact hk

namespace Environment

/-- A text compiles to an operand without operators, with phrases nested so many times at most. -/
def CompilesPrimary (depth : Nat) (env : Environment) (params : List ParamDecl) (text : String)
    (args : List Argument) (l : Lambda) : Prop :=
  l.params = bindParams params ∧
    ∃ shapes, env.ReadsText l.params args text (Reads (unsigned (level depth))) shapes l.body l.slots

end Environment

/-- A text that is an operand in front of a member. -/
structure Grammar.Fronts (scope : Scope) (n : Nat) (text : String) (start slots : Nat) (ls : List Lexeme)
    (e : Expr) : Prop where
  scans {cs : List Char} {ms : List Lexeme} (h : Scans cs ms) : Scans (text.toList ++ '.' :: cs) (ls ++ dot :: ms)
  unsigned {t : Token} {rest : List Lexeme} (h : t.Shows (ls ++ rest)) : unaryOperator? t = none
  plain (cs : List Char) : Ends .exclamation (text.toList ++ cs)
  takes (made : Shapes) (rest : List Lexeme) :
    ∃ made', TakesMembers (level n) scope (start, made) ls e (slots, made') (dot :: rest)

namespace Environment.CompilesPrimary

variable {env : Environment} {decls : List ParamDecl} {text : String} {args : List Argument} {l : Lambda}
  {depth n : Nat} {item : Ty}

/-- The implicit parameter is an operand. -/
theorem implicit (depth : Nat) (env : Environment) (ty : Ty) {args : List Argument} {symbols : Symbols}
    (h : Symbols.ofText (bindParams [⟨none, ty⟩]) args = .ok symbols) :
    env.CompilesPrimary depth [⟨none, ty⟩] "it" args ⟨bindParams [⟨none, ty⟩], .param ty 0, 1⟩ := by
  have hname : Lexeme.Whole ⟨.identifier, "it"⟩ := ⟨_, _, rfl, by decide, rfl⟩
  have hscans : Scans "it".toList [⟨.identifier, "it"⟩] := .single hname
  obtain ⟨t, ht, hahead, hmade⟩ := hscans.begins (env.scope (bindParams [⟨none, ty⟩]) symbols)
    (bindParams [⟨none, ty⟩]) .empty
  have htakes : Takes (primary (level depth)) (env.scope (bindParams [⟨none, ty⟩]) symbols) (1, .empty)
      [⟨.identifier, "it"⟩] (.param ty 0) (1, .empty) [] :=
    takes_primary (level_derived depth) (takes_implicit rfl) (.nil 6)
  obtain ⟨t', hread, hahead', hmade'⟩ := htakes t hahead hmade
  exact ⟨rfl, .empty, symbols, h, t, t', ht, reads_unsigned.mpr ⟨unaryOperator?_implicit hahead.shows, hread⟩,
    hahead'.shows, congrArg Prod.fst hmade'⟩

/-- By itself it is an expression. -/
theorem compiles (h : env.CompilesPrimary depth decls text args l) (hdepth : depth < maxDepth) :
    env.Compiles decls none text args l := by
  obtain ⟨hparams, shapes, symbols, hsymbols, s, s', hadvance, hread, hdone, hslots⟩ := h
  rw [hparams] at hsymbols hadvance hread
  have htext : env.ReadsText (bindParams decls) args text (Reads (reader (level depth) 6)) shapes l.body l.slots :=
    ⟨symbols, hsymbols, s, s', hparams ▸ hadvance, reads_unary_of_unsigned hread, hdone, hslots⟩
  obtain ⟨symbols, ls, grow, hsymbols, hscans, htakes⟩ := htext.takes (m := maxDepth - 1) (by omega)
    (bindParams_slots decls)
  have hoperand := htakes 0 .empty [] (.of_first (by decide)) (.nil 6)
  rw [raise_zero, Expr.mapSlots_id, length_bindParams] at hoperand
  have hexpression : Takes expression _ _ _ _ _ [] :=
    takes_descend (level_derived (maxDepth - 1)) hoperand (Nat.zero_le 6) (.nil 0)
  have hcompiles : env.Compiles decls none text args ⟨bindParams decls, l.body, l.slots⟩ :=
    compiles_of_takes hsymbols hscans hexpression (by simp)
  rwa [← hparams] at hcompiles

theorem fronts (h : env.CompilesPrimary depth decls text args l) (hlist : l.body.ty = .list item) (hn : depth ≤ n) :
    ∃ (symbols : Symbols) (ls : List Lexeme), Symbols.ofText (bindParams decls) args = .ok symbols ∧
      Fronts (env.scope (bindParams decls) symbols) n text decls.length l.slots ls l.body := by
  obtain ⟨hparams, shapes, symbols, hsymbols, s, s', hadvance, hread, hdone, hslots⟩ := h
  rw [hparams] at hsymbols hadvance hread
  have hopened := Opened.of_reads (level_derived depth) hread
  have htext : env.ReadsText (bindParams decls) args text (Opened (level depth)) shapes l.body l.slots :=
    ⟨symbols, hsymbols, s, s', hparams ▸ hadvance, hopened, hdone, hslots⟩
  obtain ⟨symbols', ls, grow, hsymbols', hscans, hembeds⟩ := htext.embeds Expr.mapSlots_id (bindParams_slots decls)
    (opened_portable (Nat.le_refl _)) (opened_portable hn) trivial
  obtain ⟨hproper, hremaining, -, -, -⟩ := Reading.ofText_advance hadvance
  have hlexemes : s.remaining = ls := hremaining.trans (hscans 0).1
  have hfirst : ls = s.token.lexeme :: s.rest.map Token.lexeme := by
    rw [← hlexemes, Reading.remaining, if_neg hopened.inside]
  refine ⟨symbols', ls, hsymbols', ?_, ?_, ?_, ?_⟩
  · intro cs ms hcs
    have hdot := hcs.cons (l := dot) ⟨_, _, rfl, by decide, rfl⟩ fun _ _ => rfl
    refine hscans.append_of_last hdot fun m hm => ?_
    have hlast := hopened.dotted (Graft.fixes_alone s _) hproper.mirrors hlist hdone m.kind ?_
    · rintro _ ⟨⟩
      exact hlast
    · show m.kind ∈ s.kinds.getLast?
      rw [Reading.kinds, hlexemes, List.getLast?_map, Option.mem_def.mp hm]
      rfl
  · intro t rest ht
    rw [hfirst] at ht
    rw [Graft.unaryOperator?_congr ht]
    exact hopened.unsigned
  · rintro cs c hc
    cases htext : text.toList with
    | nil =>
        rw [htext] at hscans
        have hnil : ls = [] := (hscans 0).1.symm.trans (by rw [Cursor.scan_of_nil rfl]; rfl)
        rw [hfirst] at hnil
        cases hnil
    | cons d ds =>
        rw [htext] at hscans hc
        cases hc
        refine beq_eq_false_iff_ne.mpr ?_
        rintro rfl
        rw [hfirst] at hscans
        have hequal := hscans.kind_of_equal
        have hkind := hopened.kind
        rcases hequal with hequal | hequal <;>
        · rw [show s.token.kind = _ from hequal] at hkind
          revert hkind
          decide
  · intro made rest
    refine ⟨grow made, ?_⟩
    intro t ht hmade
    obtain ⟨hstart, rfl⟩ := Prod.mk.inj hmade
    rw [← length_bindParams decls] at hstart
    have hdot : Grammar.Closes (dot :: rest) := .of_closing (show .dot ∈ closing by decide)
    obtain ⟨t', hread, hahead, hslots', hshapes⟩ := hembeds ht (Nat.le_of_eq hstart.symm) hdot trivial
    rw [hstart, Nat.sub_self] at hread hslots'
    rw [raise_zero, Expr.mapSlots_id] at hread
    obtain ⟨a, u, ha, hsteps⟩ := hread.exists_start
    exact ⟨a, u, t', ha, hsteps, hahead, Prod.ext hslots' hshapes⟩

end Environment.CompilesPrimary

end RowQuery
