import RowQuery.Proofs.Grafting
import RowQuery.Proofs.SlotDiscipline

/-!
Whole texts inside other texts. A text that reads up to its end by itself is scanned into the same lexemes
wherever it stands, and is read in the same way in front of anything that does not continue it. In
particular it does not matter which shapes were made before, and a text that nests phrases less deeply than
allowed may be nested itself.
-/

namespace RowQuery

open Parse Grammar Lexeme

/-! ### Lexemes of a text -/

/-- A text is scanned into lexemes without fault, wherever it stands. -/
def Scans (cs : List Char) (ls : List Lexeme) : Prop :=
  ∀ pos, (Cursor.scan ⟨pos, cs⟩).tokens.map Token.lexeme = ls ∧
    ∃ final, (Cursor.scan ⟨pos, cs⟩).stop = .finished final

theorem Cursor.skipBlank_eq (pos : Nat) (cs : List Char) :
    skipBlank ⟨pos, cs⟩ = ⟨pos + (cs.takeWhile Text.isBlank).length, cs.dropWhile Text.isBlank⟩ := rfl

/-- Only the positions depend on where a text stands. -/
theorem Cursor.scan_lexemes : ∀ (k : Cursor) (pos : Nat),
    (scan ⟨pos, k.rest⟩).tokens.map Token.lexeme = (scan k).tokens.map Token.lexeme ∧
      ((∃ final, (scan k).stop = .finished final) → ∃ final, (scan ⟨pos, k.rest⟩).stop = .finished final) := by
  refine scan_induction fun ⟨start, cs⟩ ih pos => ?_
  rw [scan_eq ⟨start, cs⟩, scan_eq ⟨pos, cs⟩]
  simp only [skipBlank_eq] at ih ⊢
  rcases hrest : cs.dropWhile Text.isBlank with _ | ⟨c, rest⟩
  · simp
  · rcases hread : Lexeme.read c rest with ⟨⟨fault, offset⟩ | kind, n⟩
    · simp [hread]
    · rw [hrest] at ih
      simp only [hread, List.map_cons]
      obtain ⟨hlexemes, hstop⟩ := ih _ c rest kind n rfl hread
        (pos + (cs.takeWhile Text.isBlank).length + n + 1)
      rw [hlexemes]
      exact ⟨rfl, hstop⟩

/-- The state before a text is read, with so many slots in use. -/
def Reading.ofText (slots : Nat) (text : String) (shapes : Shapes) : Reading :=
  ⟨⟨.done, "", 0⟩, (scan text).tokens, (scan text).stop, slots, shapes⟩

namespace Scans

variable {cs ds : List Char} {ls ms : List Lexeme}

theorem of_scan {text : String} (hlexemes : (scan text).tokens.map Token.lexeme = ls)
    (hstop : ∃ final, (scan text).stop = .finished final) : Scans text.toList ls := by
  intro pos
  obtain ⟨hsame, hfinished⟩ := Cursor.scan_lexemes ⟨0, text.toList⟩ pos
  exact ⟨hsame.trans hlexemes, hfinished hstop⟩

theorem of_spells (h : Spells ls cs) (hwhole : ∀ l ∈ ls, l.Whole) (hapart : ls.IsChain Apart) : Scans cs ls :=
  h.scan hwhole hapart

/-- Only the last lexeme of a text could be continued by another one. -/
theorem append_of_last (h : Scans cs ls) (h' : Scans ds ms) (hends : ∀ l ∈ ls.getLast?, Ends l.kind ds) :
    Scans (cs ++ ds) (ls ++ ms) := by
  intro pos
  obtain ⟨hlexemes, hstop⟩ := h pos
  obtain ⟨hlexemes', hstop'⟩ := h' (pos + cs.length)
  have hlast : ∀ t ∈ (Cursor.scan ⟨pos, cs⟩).tokens.getLast?, Ends t.kind ds := by
    intro t ht
    refine hends t.lexeme ?_
    rw [← hlexemes, List.getLast?_map, Option.mem_def.mp ht]
    rfl
  have happend : Cursor.scan ⟨pos, cs ++ ds⟩ = _ := Cursor.scan_append ⟨pos, cs⟩ hlast hstop
  rw [happend, List.map_append, hlexemes, hlexemes']
  exact ⟨rfl, hstop'⟩

theorem append (h : Scans cs ls) (h' : Scans ds ms) (hends : ∀ l ∈ ls, Ends l.kind ds) :
    Scans (cs ++ ds) (ls ++ ms) :=
  h.append_of_last h' fun l hl => hends l (List.mem_of_getLast? hl)

theorem single {l : Lexeme} (h : l.Whole) : Scans l.text.toList [l] := by
  have hspells : Spells [l] ([] ++ (l.text.toList ++ [])) := .cons (by simp) (.nil (by simp))
  rw [List.nil_append, List.append_nil] at hspells
  exact of_spells hspells (by simpa using h) (.singleton l)

/-- A reading of a text starts with its lexemes ahead. -/
theorem begins_at {text : String} (h : Scans text.toList ls) (scope : Scope) (slots : Nat) (shapes : Shapes) :
    ∃ s, Reads advance scope (.ofText slots text shapes) () s ∧ s.Ahead ls ∧ s.made = (slots, shapes) :=
  exists_advance scope (h 0).1 (h 0).2

theorem begins {text : String} (h : Scans text.toList ls) (scope : Scope) (params : List Param) (shapes : Shapes) :
    ∃ s, Reads advance scope (Environment.start params text shapes) () s ∧ s.Ahead ls ∧
      s.made = (params.length, shapes) :=
  h.begins_at scope params.length shapes

/-- Blank space before a text is passed over. -/
theorem after_blank {c : Char} (hc : Text.isBlank c) (h : Scans cs ls) : Scans (c :: cs) ls := by
  have hblank : Scans [c] [] := of_spells (.nil (by simpa using hc)) (by simp) .nil
  exact hblank.append h (by simp)

/-- A lexeme that nothing continues, before a text. -/
theorem cons {l : Lexeme} (h : Scans cs ls) (hl : l.Whole) (hends : Ends l.kind cs) :
    Scans (l.text.toList ++ cs) (l :: ls) :=
  (single hl).append h (by simpa using hends)

/-- A member of what a name stands for. -/
theorem member {name : String} (h : Scans cs ls) (hname : Lexeme.Whole ⟨.identifier, name⟩) :
    Scans (name.toList ++ '.' :: cs) (⟨.identifier, name⟩ :: dot :: ls) := by
  have hdot := h.cons (l := dot) ⟨_, _, rfl, by decide, rfl⟩ fun _ _ => rfl
  exact hdot.cons hname (show Ends .identifier _ by rintro _ ⟨⟩; decide)

/-- A member of the implicit parameter. -/
theorem implicit_member (h : Scans cs ls) : Scans ("it.".toList ++ cs) (⟨.identifier, "it"⟩ :: dot :: ls) := by
  have hit : Lexeme.Whole ⟨.identifier, "it"⟩ := ⟨_, _, rfl, by decide, rfl⟩
  exact h.member hit

end Scans

/-- A character that continues no lexeme. -/
def Lexeme.Divides (c : Char) : Prop := ∀ k, continues k c = false

theorem Lexeme.Divides.ends {c : Char} (h : Divides c) (k : TokenKind) (cs : List Char) :
    Ends k (c :: cs) := by
  rintro d ⟨⟩
  exact h k

theorem Lexeme.divides_blank {c : Char} (h : Text.isBlank c) : Divides c := fun k => continues_blank k h

theorem Lexeme.divides_closeParen : Divides ')' := by
  intro k
  cases k <;> decide

theorem Lexeme.divides_comma : Divides ',' := by
  intro k
  cases k <;> decide

theorem Lexeme.divides_closeBracket : Divides ']' := by
  intro k
  cases k <;> decide

/-- A text in parentheses after a name. -/
theorem Scans.call {cs : List Char} {ls : List Lexeme} {name : String} (h : Scans cs ls)
    (hname : Lexeme.Whole ⟨.identifier, name⟩) :
    Scans (name.toList ++ '(' :: (cs ++ [')'])) (⟨.identifier, name⟩ :: openParen :: (ls ++ [closeParen])) := by
  have hclose := h.append (.single (l := closeParen) ⟨_, _, rfl, by decide, rfl⟩)
    fun l _ => divides_closeParen.ends l.kind []
  have hopen := hclose.cons (l := openParen) ⟨_, _, rfl, by decide, rfl⟩ fun _ _ => rfl
  exact hopen.cons hname (show Ends .identifier _ by rintro _ ⟨⟩; decide)

/-- A text in brackets after a name. -/
theorem Scans.element {cs : List Char} {ls : List Lexeme} {name : String} (h : Scans cs ls)
    (hname : Lexeme.Whole ⟨.identifier, name⟩) :
    Scans (name.toList ++ '[' :: (cs ++ [']'])) (⟨.identifier, name⟩ :: openBracket :: (ls ++ [closeBracket])) := by
  have hclose := h.append (.single (l := closeBracket) ⟨_, _, rfl, by decide, rfl⟩)
    fun l _ => divides_closeBracket.ends l.kind []
  have hopen := hclose.cons (l := openBracket) ⟨_, _, rfl, by decide, rfl⟩ fun _ _ => rfl
  exact hopen.cons hname (show Ends .identifier _ by rintro _ ⟨⟩; decide)

/-- Two texts with a comma between them. -/
theorem Scans.listed {a b : String} {ls ms : List Lexeme} (h : Scans a.toList ls) (h' : Scans b.toList ms) :
    Scans (a ++ ", " ++ b).toList (ls ++ comma :: ms) := by
  have hcomma : comma.Whole := ⟨_, _, rfl, by decide, rfl⟩
  have hlast := (h'.after_blank (c := ' ') (by decide)).cons hcomma fun _ _ => rfl
  have hall := h.append hlast fun l _ => divides_comma.ends l.kind _
  simpa [comma] using hall

/-- Two texts with a lexeme between them, in blank space. -/
theorem Scans.joined {a b : String} {ls₁ ls₂ : List Lexeme} {l : Lexeme} (h₁ : Scans a.toList ls₁)
    (hl : l.Whole) (h₂ : Scans b.toList ls₂) :
    Scans (a ++ " " ++ l.text ++ " " ++ b).toList (ls₁ ++ l :: ls₂) := by
  have hblank : Divides ' ' := divides_blank (by decide)
  have hright := (h₂.after_blank (c := ' ') (by decide)).cons hl (hblank.ends l.kind _)
  have hall := h₁.append (hright.after_blank (c := ' ') (by decide)) fun m _ => hblank.ends m.kind _
  simpa using hall

/-! ### Texts by themselves -/

/-- A state in which a text may be read on: the end is where nothing is left. -/
structure Reading.Proper (s : Reading) : Prop where
  tokens : ∀ u ∈ s.rest, u.kind ≠ .done
  ended : s.token.kind = .done → s.rest = [] ∧ ∃ pos, s.stop = .finished pos

/-- The first token of a text. -/
theorem Reading.ofText_advance {scope : Scope} {slots : Nat} {text : String} {shapes : Shapes} {s : Reading}
    (h : Reads advance scope (ofText slots text shapes) () s) :
    s.Proper ∧ s.remaining = (scan text).tokens.map Token.lexeme ∧ s.stop = (scan text).stop ∧
      s.slots = slots ∧ s.shapes = shapes := by
  have hproper := Cursor.scan_tokens_proper ⟨0, text.toList⟩
  obtain ⟨hslots, hshapes, hstop, -, -⟩ := reads_advance h
  refine ⟨?_, ?_, hstop, hslots, hshapes⟩
  · rcases reads_advance_iff.mp h with ⟨t, ts, hrest, rfl⟩ | ⟨pos, hnil, hfinished, rfl⟩
    · have htokens : (Cursor.scan ⟨0, text.toList⟩).tokens = t :: ts := hrest
      rw [htokens] at hproper
      obtain ⟨ht, hts⟩ := List.forall_mem_cons.mp hproper
      exact ⟨hts, fun hdone => absurd hdone ht⟩
    · exact ⟨hproper, fun _ => ⟨hnil, pos, hfinished⟩⟩
  · rcases reads_advance_iff.mp h with ⟨t, ts, hrest, rfl⟩ | ⟨pos, hnil, hfinished, rfl⟩
    · have htokens : (scan text).tokens = t :: ts := hrest
      have ht : t.kind ≠ .done := hproper t (by rw [show (Cursor.scan _).tokens = _ from htokens]; simp)
      rw [Reading.remaining, if_neg ht, htokens]
      rfl
    · have htokens : (scan text).tokens = [] := hnil
      rw [htokens]
      exact if_pos rfl

/-- A scope whose slots from a first one on are moved up. -/
def Scope.raised (scope : Scope) (base shift : Nat) : Scope :=
  { scope with it := scope.it.map (Expr.mapSlots (raise base shift)) }

/-- The names of a scope stand for expressions without slots that are moved up. -/
def Scope.Keeps (scope : Scope) (base shift : Nat) : Prop :=
  ∀ name e, scope.symbols.lookup name = some (.expr e) → e.mapSlots (raise base shift) = e

theorem Scope.keeps_zero (scope : Scope) (base : Nat) : scope.Keeps base 0 := by
  intro name e _
  rw [raise_zero, Expr.mapSlots_id]

theorem Scope.raised_zero (scope : Scope) (base : Nat) : scope.raised base 0 = scope := by
  have hit : scope.it.map (Expr.mapSlots id) = scope.it := by
    cases scope.it with
    | none => rfl
    | some e => rw [Option.map_some, Expr.mapSlots_id]
  rw [raised, raise_zero, hit]

namespace Scope.Sees

variable {scope : Scope} {base : Nat}

theorem mapSlots_raise {e : Expr} (h : ∃ ty n, e = .param ty n ∧ n < base) (shift : Nat) :
    e.mapSlots (raise base shift) = e := by
  obtain ⟨ty, n, rfl, hn⟩ := h
  exact congrArg (Expr.param ty) (raise_of_lt hn)

theorem keeps (h : scope.Sees (· < base)) (shift : Nat) : scope.Keeps base shift := by
  intro name e he
  rcases h.symbols name e he with hparam | ⟨ty, v, rfl⟩
  · exact mapSlots_raise hparam shift
  · rfl

/-- The parameters of a text keep their slots. -/
theorem raised_eq (h : scope.Sees (· < base)) (shift : Nat) : scope.raised base shift = scope := by
  have hit : scope.it.map (Expr.mapSlots (raise base shift)) = scope.it := by
    cases hit : scope.it with
    | none => rfl
    | some e => rw [Option.map_some, mapSlots_raise (h.implicit e hit) shift]
  rw [Scope.raised, hit]

end Scope.Sees

/-- A text by itself, with nothing after it. -/
def Graft.alone (s : Reading) : Graft :=
  ⟨s.kinds, [], s.stop, 0, 0, fun _ _ => True, .of_first (by decide), fun _ _ => trivial⟩

theorem Graft.fixes_alone (s : Reading) (scope : Scope) : (alone s).Fixes scope := scope.keeps_zero 0

theorem Reading.Proper.mirrors {s : Reading} (hs : s.Proper) :
    (Graft.alone s).Mirrors s { s with stop := .finished 0 } := by
  have hahead : Reading.Ahead { s with stop := .finished 0 } (s.remaining ++ []) := by
    rw [List.append_nil, Reading.remaining]
    split
    · rename_i hnil
      refine ⟨hnil, ?_, 0, rfl⟩
      rw [(hs.ended hnil).1]
      rfl
    · exact ⟨rfl, rfl, 0, rfl⟩
  exact ⟨hs.tokens, rfl, hs.ended, List.suffix_rfl, hahead, Nat.zero_le _, rfl, trivial⟩

/-- A way of reading that is carried from a text into other texts, where what comes after is as asked. -/
def Grammar.Portable {α : Type} (C : List Lexeme → Prop) (φ : (Nat → Nat) → α → α)
    (R R' : Scope → Reading → α → Reading → Prop) : Prop :=
  ∀ (g : Graft) {scope : Scope} {s t s' : Reading} {a : α}, g.Fixes scope → g.Mirrors s t →
    R scope s a s' → (s'.token.kind = .done → C g.after) →
    ∃ t', R' (g.scope scope) t (φ g.rename a) t' ∧ g.Mirrors s' t'

namespace Grammar.Portable

variable {α : Type} {C : List Lexeme → Prop} {φ : (Nat → Nat) → α → α} {R R' : Scope → Reading → α → Reading → Prop}
  {scope : Scope} {s s' t : Reading} {a : α}

/-- A text that is read to its end has no fault. -/
theorem finished (h : Portable C φ R R') (hnil : C []) (hs : s.Proper) (hread : R scope s a s')
    (hdone : s'.token.kind = .done) : ∃ pos, s.stop = .finished pos := by
  obtain ⟨t', -, ht⟩ := h _ (Graft.fixes_alone s scope) hs.mirrors hread fun _ => hnil
  exact (ht.ended hdone).2

/-- What reads a text to its end reads it in front of what does not continue it. -/
theorem embed (h : Portable C φ R R') (hs : s.Proper) (hread : R scope s a s')
    (hdone : s'.token.kind = .done) {base : Nat} (hscope : scope.Keeps base (t.slots - s.slots))
    (hbase : base ≤ s.slots) {rest : List Lexeme} (ht : t.Ahead (s.remaining ++ rest))
    (hslots : s.slots ≤ t.slots) (hrest : Closes rest) (hstops : C rest) :
    ∃ t', R' (scope.raised base (t.slots - s.slots)) t (φ (raise base (t.slots - s.slots)) a) t' ∧
      t'.Ahead rest ∧ t'.slots = s'.slots + (t.slots - s.slots) ∧
      (t.shapes = s.shapes → t'.shapes = s'.shapes) := by
  let g : Graft := ⟨s.kinds, rest, s.stop, base, t.slots - s.slots,
    fun made made' => t.shapes = s.shapes → made' = made, hrest, fun fields hmade heq => by rw [hmade heq]⟩
  have hmirrors : g.Mirrors s t :=
    ⟨hs.tokens, rfl, hs.ended, List.suffix_rfl, ht, hbase, by show t.slots = s.slots + (t.slots - s.slots); omega, id⟩
  obtain ⟨t', hread', ht'⟩ := h g hscope hmirrors hread fun _ => hstops
  have hahead := ht'.ahead
  rw [Reading.remaining, if_pos hdone, List.nil_append] at hahead
  exact ⟨t', hread', hahead, ht'.slots, ht'.shapes⟩

end Grammar.Portable

/-! ### Expressions and keys -/

namespace Grammar

theorem reader_portable {n m : Nat} (h : n ≤ m) (k : Nat) :
    Portable (Stops k) (fun f e => e.mapSlots f) (Reads (reader (level n) k)) (Reads (reader (level m) k)) := by
  intro g scope s t s' e hscope hmirrors hread hsettled
  have hinner := g.levels h
  cases k with
  | zero => exact Graft.conditional_agrees hinner hscope hmirrors e s' hread hsettled
  | succ k => exact Graft.reader_agrees hinner (Nat.succ_pos k) hscope hmirrors e s' hread hsettled

theorem expression_portable {n m : Nat} (h : n ≤ m) :
    Portable (Stops 0) (fun f e => e.mapSlots f) (Reads (level n).expression) (Reads (level m).expression) := by
  cases n with
  | zero => exact fun g _ _ _ _ _ _ _ hfail => absurd hfail reads_fail
  | succ n =>
      obtain ⟨m, rfl⟩ : ∃ d, m = d + 1 := ⟨m - 1, by omega⟩
      exact reader_portable (Nat.le_of_succ_le_succ h) 0

/-- A key of an ordering: an expression and its direction. -/
def key : Parse (Expr × Bool) := do
  let e ← expression
  return (e, ← direction)

/-- The slots of a key are those of its expression. -/
def mapKey (f : Nat → Nat) : Expr × Bool → Expr × Bool := Prod.map (Expr.mapSlots f) id

/-- Keys that are read one after the other, with commas between them. -/
inductive ReadsKeys (scope : Scope) : Reading → List (Expr × Bool) → Reading → Prop
  | last {s s' : Reading} {x : Expr × Bool} (h : Reads key scope s x s') : ReadsKeys scope s [x] s'
  | next {s m n s' : Reading} {x : Expr × Bool} {xs : List (Expr × Bool)} (h : Reads key scope s x m)
      (hcomma : m.token.kind = .comma) (hadvance : Reads advance scope m () n)
      (later : ReadsKeys scope n xs s') : ReadsKeys scope s (x :: xs) s'

variable {scope : Scope} {s s' m n : Reading} {x : Expr × Bool} {xs ys : List (Expr × Bool)} {rest : List Lexeme}

theorem key_left (h : Reads key scope s x s') : s'.left < s.left := by
  simp only [key, reads_bind, reads_pure] at h
  obtain ⟨e, m, he, _, _, hdirection, rfl, rfl⟩ := h
  exact Nat.lt_of_le_of_lt (direction_reads hdirection).2 ((level_derived maxDepth).expression he).2

namespace ReadsKeys

theorem left (h : ReadsKeys scope s xs s') : s'.left < s.left := by
  induction h with
  | last h => exact key_left h
  | next h _ hadvance _ ih =>
      exact Nat.lt_trans (Nat.lt_of_lt_of_le ih (reads_advance hadvance).2.2.2.1) (key_left h)

theorem append (h : ReadsKeys scope s xs m) (hcomma : m.token.kind = .comma)
    (hadvance : Reads advance scope m () n) (h' : ReadsKeys scope n ys s') :
    ReadsKeys scope s (xs ++ ys) s' := by
  induction h with
  | last h => exact .next h hcomma hadvance h'
  | next h hfirst hskip _ ih => exact .next h hfirst hskip (ih hcomma hadvance)

theorem of_iterates (h : Iterates (nextItem fun _ => key) scope xs m ys s') {x : Expr × Bool}
    (hx : Reads key scope s x m) :
    ∃ zs, ReadsKeys scope s (x :: zs) s' ∧ ys = xs ++ zs := by
  induction h generalizing s x with
  | stop hnone =>
      rcases reads_nextItem.mp hnone with ⟨_, _, _, _, _, hsome⟩ | ⟨_, _, rfl⟩
      · cases hsome
      · exact ⟨[], .last hx, (List.append_nil _).symm⟩
  | next hsome _ ih =>
      rcases reads_nextItem.mp hsome with ⟨hcomma, u, y, hu, hy, heq⟩ | ⟨_, hnone, _⟩
      · cases heq
        obtain ⟨zs, hzs, rfl⟩ := ih hy
        exact ⟨y :: zs, .next hx hcomma hu hzs, List.append_assoc _ _ _⟩
      · cases hnone

theorem iterates (h : ReadsKeys scope n ys s') (hs' : s'.token.kind ≠ .comma) {m : Reading}
    (hcomma : m.token.kind = .comma) (hadvance : Reads advance scope m () n) (xs : List (Expr × Bool)) :
    Iterates (nextItem fun _ => key) scope xs m (xs ++ ys) s' := by
  induction h generalizing m xs with
  | last h =>
      refine .next (reads_nextItem.mpr (Or.inl ⟨hcomma, _, _, hadvance, h, rfl⟩)) (.stop ?_)
      exact reads_nextItem.mpr (Or.inr ⟨hs', rfl, rfl⟩)
  | @next _ _ _ _ x ys h hfirst hskip _ ih =>
      rw [List.append_cons]
      exact .next (reads_nextItem.mpr (Or.inl ⟨hcomma, _, _, hadvance, h, rfl⟩)) (ih hs' hfirst hskip _)

end ReadsKeys

/-- A text of keys is read key by key. -/
theorem reads_ordering :
    Reads ordering scope s xs s' ↔ ReadsKeys scope s xs s' ∧ s'.token.kind = .done := by
  have hordering : Reads ordering scope s xs s' ↔
      ∃ x m, Reads key scope s x m ∧ Iterates (nextItem fun _ => key) scope [x] m xs s' ∧
        s'.token.kind = .done := by
    have hitems : ∀ {as m}, Reads (separated fun _ => key) scope s as m ↔
        ∃ a u, Reads key scope s a u ∧ Iterates (nextItem fun _ => key) scope [a] u as m :=
      reads_separated fun h => key_left h
    show Reads (separated (fun _ => key) >>= fun keys => require .done .syntaxError >>= fun _ => pure keys)
      scope s xs s' ↔ _
    simp only [reads_bind, reads_require, reads_pure, hitems]
    constructor
    · rintro ⟨_, _, ⟨x, m, hx, hxs⟩, _, _, ⟨hdone, rfl⟩, rfl, rfl⟩
      exact ⟨x, m, hx, hxs, hdone⟩
    · rintro ⟨x, m, hx, hxs, hdone⟩
      exact ⟨xs, s', ⟨x, m, hx, hxs⟩, (), s', ⟨hdone, rfl⟩, rfl, rfl⟩
  rw [hordering]
  constructor
  · rintro ⟨x, m, hx, hxs, hdone⟩
    obtain ⟨zs, hzs, rfl⟩ := ReadsKeys.of_iterates hxs hx
    exact ⟨hzs, hdone⟩
  · rintro ⟨h, hdone⟩
    cases h with
    | last h =>
        refine ⟨_, _, h, .stop (reads_nextItem.mpr (Or.inr ⟨?_, rfl, rfl⟩)), hdone⟩
        simp [hdone]
    | next h hcomma hadvance later =>
        exact ⟨_, _, h, later.iterates (by simp [hdone]) hcomma hadvance [_], hdone⟩

/-- The words that give the direction of a key. -/
def directions : List String := ["asc", "ascending", "desc", "descending"]

/-- What may come after a key: it does not continue the expression and gives no direction. -/
structure EndsKey (rest : List Lexeme) : Prop where
  stops : Stops 0 rest
  plain : ∀ t : Token, t.Shows rest → ∀ word ∈ directions, t.isWord word = false

theorem EndsKey.of_first (hstops : Stops 0 rest) (h : first rest ≠ .identifier) : EndsKey rest := by
  refine ⟨hstops, fun t ht word _ => ?_⟩
  rw [← kind_of_shows ht] at h
  rw [Token.isWord, beq_eq_false_iff_ne.mpr h, Bool.false_and]

theorem EndsKey.nil : EndsKey [] := .of_first (.nil 0) (by decide)

/-- Without a word for its direction, a key is an ascending one. -/
theorem reads_direction_plain (h : ∀ word ∈ directions, s.token.isWord word = false) {up : Bool} :
    Reads direction scope s up s' ↔ up = true ∧ s' = s := by
  have hplain : Reads direction scope s up s' ↔ Reads (pure true) scope s up s' := by
    simp only [direction, reads_bind, reads_token]
    constructor
    · rintro ⟨_, _, ⟨rfl, rfl⟩, hread⟩
      simpa [h "asc" (by decide), h "ascending" (by decide), h "desc" (by decide), h "descending" (by decide)]
        using hread
    · intro hread
      refine ⟨_, _, ⟨rfl, rfl⟩, ?_⟩
      simpa [h "asc" (by decide), h "ascending" (by decide), h "desc" (by decide), h "descending" (by decide)]
        using hread
  rw [hplain, reads_pure]
  exact and_congr eq_comm eq_comm

theorem isWord_of_done (h : s.token.kind = .done) (word : String) : s.token.isWord word = false := by
  rw [Token.isWord, h]
  rfl

theorem carries_direction {g : Graft} {t : Reading} (h : g.Mirrors s t) :
    g.Carries (fun s' => s'.token.kind = .done → EndsKey g.after) scope id direction direction s t := by
  by_cases hs : s.token.kind = .done
  · intro up s' hread hends
    obtain ⟨rfl, rfl⟩ := (reads_direction_plain fun word _ => isWord_of_done hs word).mp hread
    have hplain := (hends hs).plain t.token (h.shows_of_done hs)
    exact ⟨t, (reads_direction_plain hplain).mpr ⟨rfl, rfl⟩, h⟩
  · refine Graft.Carries.look ?_
    simp only [Token.isWord_congr (h.lexeme hs)]
    split
    · exact Graft.Carries.skip h hs fun _ _ hm => Graft.carries_pure id true hm
    · split
      · exact Graft.Carries.skip h hs fun _ _ hm => Graft.carries_pure id false hm
      · exact Graft.carries_pure id true h

theorem key_portable : Portable EndsKey mapKey (Reads key) (Reads key) := by
  intro g scope s t s' x hscope hmirrors hread hends
  have hexpression : g.Carries (g.Settled 0) scope (Expr.mapSlots g.rename) expression expression s t :=
    Graft.conditional_agrees (g.levels (Nat.le_refl _)) hscope hmirrors
  refine hexpression.before (P := fun s' => s'.token.kind = .done → EndsKey g.after) (ψ := mapKey g.rename)
    ?_ ?_ x s' hread hends
  · intro e m x s' hx hs' hdone
    obtain ⟨_, _, hdirection, hpure⟩ := reads_bind.mp hx
    obtain ⟨-, rfl⟩ := reads_pure.mp hpure
    obtain ⟨-, rfl⟩ := (reads_direction_plain fun word _ => isWord_of_done hdone word).mp hdirection
    exact (hs' hdone).stops
  · intro e m m' _ _ hm
    refine (carries_direction hm).before ?_ fun up _ _ _ _ hn => Graft.carries_pure (mapKey g.rename) (e, up) hn
    intro up n x s' hpure hs'
    obtain ⟨-, rfl⟩ := reads_pure.mp hpure
    exact hs'

theorem keys_portable : Portable EndsKey (fun f => List.map (mapKey f)) ReadsKeys ReadsKeys := by
  intro g scope s t s' xs hscope hmirrors hread hends
  induction hread generalizing t with
  | last h =>
      obtain ⟨t', ht, hmirrors'⟩ := key_portable g hscope hmirrors h hends
      exact ⟨t', .last ht, hmirrors'⟩
  | @next s m n s' x xs h hcomma hadvance _ ih =>
      have hinside : m.Inside := by simp [Reading.Inside, hcomma]
      obtain ⟨m', hm, hmirrors₁⟩ := key_portable g hscope hmirrors h fun hdone => absurd hdone hinside
      obtain ⟨n', hn, hmirrors₂⟩ :=
        Graft.carries_advance (P := fun _ => True) hmirrors₁ hinside _ _ hadvance trivial
      obtain ⟨t', ht, hmirrors₃⟩ := ih hmirrors₂ hends
      exact ⟨t', .next hm (by rw [hmirrors₁.kind hinside, hcomma]) hn ht, hmirrors₃⟩

theorem mapKey_id : mapKey id = id := by
  funext ⟨e, up⟩
  rw [mapKey, Prod.map, Expr.mapSlots_id]
  rfl

end Grammar

/-! ### Whole texts -/

/-- A text is read to its end in a scope, with so many slots in use before it, and from given shapes on. -/
def ReadsWhole {α : Type} (scope : Scope) (base : Nat) (text : String) (R : Scope → Reading → α → Reading → Prop)
    (shapes : Shapes) (a : α) (slots : Nat) : Prop :=
  ∃ s s', Reads advance scope (.ofText base text shapes) () s ∧ R scope s a s' ∧ s'.token.kind = .done ∧
    s'.slots = slots

namespace ReadsWhole

variable {α : Type} {scope : Scope} {start : Nat} {text : String} {C : List Lexeme → Prop} {φ : (Nat → Nat) → α → α}
  {R R' : Scope → Reading → α → Reading → Prop} {shapes : Shapes} {a : α} {slots : Nat}

/-- Blank space is no text to be read. -/
theorem not_blank (hleft : ∀ {scope s a s'}, R scope s a s' → s'.left < s.left)
    (h : ReadsWhole scope start text R shapes a slots) : Text.isBlankText text = false := by
  obtain ⟨s, s', hadvance, hread, -, -⟩ := h
  rw [Bool.eq_false_iff]
  intro hblank
  have hrest : (Cursor.skipBlank ⟨0, text.toList⟩).rest = [] :=
    List.dropWhile_eq_nil_iff.mpr (List.all_eq_true.mp hblank)
  have htokens : (scan text).tokens = [] := by rw [scan, Cursor.scan_of_nil hrest]
  have hzero : s.left = 0 := by
    rcases reads_advance_iff.mp hadvance with ⟨t, ts, hcons, rfl⟩ | ⟨pos, hnil, _, rfl⟩
    · have hcons : (scan text).tokens = t :: ts := hcons
      rw [htokens] at hcons
      cases hcons
    · simp [Reading.left, hnil]
  have hlt := hleft hread
  omega

theorem le_slots (hle : ∀ {scope s a s'}, R scope s a s' → s.slots ≤ s'.slots)
    (h : ReadsWhole scope start text R shapes a slots) : start ≤ slots := by
  obtain ⟨s, s', hadvance, hread, -, rfl⟩ := h
  rw [← (Reading.ofText_advance hadvance).2.2.2.1]
  exact hle hread

theorem finished (hR : Portable C φ R R') (hnil : C []) (h : ReadsWhole scope start text R shapes a slots) :
    ∃ pos, (scan text).stop = .finished pos := by
  obtain ⟨s, s', hadvance, hread, hdone, -⟩ := h
  obtain ⟨hproper, -, hstop, -, -⟩ := Reading.ofText_advance hadvance
  rw [← hstop]
  exact hR.finished hnil hproper hread hdone

variable (hφ : ∀ a, φ id a = a)

include hφ

/-- It does not matter which shapes were made before. -/
theorem again (hR : Portable C φ R R') (hnil : C []) (h : ReadsWhole scope start text R shapes a slots)
    (made : Shapes) : ReadsWhole scope start text R' made a slots := by
  have hfinished := h.finished hR hnil
  obtain ⟨s, s', hadvance, hread, hdone, rfl⟩ := h
  obtain ⟨hproper, hremaining, -, hslots, -⟩ := Reading.ofText_advance hadvance
  obtain ⟨t, ht, hahead, hmade⟩ := (Scans.of_scan rfl hfinished).begins_at scope start made
  have hsame : t.slots - s.slots = 0 := by rw [hslots, (Reading.ofText_advance ht).2.2.2.1, Nat.sub_self]
  rw [← hremaining, ← List.append_nil s.remaining] at hahead
  obtain ⟨t', hread', hahead', hslots', -⟩ := hR.embed hproper hread hdone (hsame ▸ scope.keeps_zero 0)
    (Nat.zero_le _) hahead (Nat.le_of_eq (hslots.trans (congrArg Prod.fst hmade).symm)) (.of_first (by decide)) hnil
  rw [hsame] at hread' hslots'
  rw [Scope.raised_zero, raise_zero, hφ] at hread'
  exact ⟨t, t', ht, hread', hahead'.shows, hslots'⟩

/-- A text that is read to its end is read in front of anything that may come after it, with its slots from one on
moved up. -/
theorem embeds (hR : Portable C φ R R) (hR' : Portable C φ R R') (hnil : C [])
    (h : ReadsWhole scope start text R shapes a slots) :
    ∃ (ls : List Lexeme) (grow : Shapes → Shapes), Scans text.toList ls ∧
      ∀ {t : Reading} {rest : List Lexeme} {base : Nat}, base ≤ start → scope.Keeps base (t.slots - start) →
        t.Ahead (ls ++ rest) → start ≤ t.slots → Closes rest → C rest → ∃ t',
          R' (scope.raised base (t.slots - start)) t (φ (raise base (t.slots - start)) a) t' ∧
          t'.Ahead rest ∧ t'.slots = slots + (t.slots - start) ∧ t'.shapes = grow t.shapes := by
  have hfinished := h.finished hR hnil
  have halone : ∀ made, ∃ s s', s.Proper ∧ s.remaining = (scan text).tokens.map Token.lexeme ∧
      s.slots = start ∧ s.shapes = made ∧ R scope s a s' ∧ s'.token.kind = .done ∧ s'.slots = slots := by
    intro made
    obtain ⟨s, s', hadvance, hread, hdone, hslots⟩ := h.again hφ hR hnil made
    obtain ⟨hproper, hremaining, -, hslots', hshapes⟩ := Reading.ofText_advance hadvance
    exact ⟨s, s', hproper, hremaining, hslots', hshapes, hread, hdone, hslots⟩
  choose s s' hproper hremaining hstart hmade hread hdone hslots using halone
  refine ⟨_, fun made => (s' made).shapes, Scans.of_scan rfl hfinished, ?_⟩
  intro t rest base hbase hkeeps ht hle hrest hends
  rw [← hremaining t.shapes] at ht
  rw [← hstart t.shapes] at hbase hkeeps hle
  obtain ⟨t', hread', hahead, hslots', hshapes⟩ :=
    hR'.embed (hproper _) (hread _) (hdone _) hkeeps hbase ht hle hrest hends
  rw [hstart] at hread' hslots'
  rw [hslots] at hslots'
  exact ⟨t', hread', hahead, hslots', hshapes (hmade _).symm⟩

end ReadsWhole

namespace Environment

/-- A text is read to its end with parameters and arguments, from given shapes on. -/
def ReadsText {α : Type} (env : Environment) (params : List Param) (args : List Argument) (text : String)
    (R : Scope → Reading → α → Reading → Prop) (shapes : Shapes) (a : α) (slots : Nat) : Prop :=
  ∃ symbols, Symbols.ofText params args = .ok symbols ∧
    ReadsWhole (env.scope params symbols) params.length text R shapes a slots

namespace ReadsText

variable {α : Type} {env : Environment} {params : List Param} {args : List Argument} {text : String}
  {C : List Lexeme → Prop} {φ : (Nat → Nat) → α → α} {R R' : Scope → Reading → α → Reading → Prop} {shapes : Shapes}
  {a : α} {slots : Nat}

theorem not_blank (hleft : ∀ {scope s a s'}, R scope s a s' → s'.left < s.left)
    (h : env.ReadsText params args text R shapes a slots) : Text.isBlankText text = false := by
  obtain ⟨_, -, hwhole⟩ := h
  exact hwhole.not_blank hleft

theorem le_slots (hle : ∀ {scope s a s'}, R scope s a s' → s.slots ≤ s'.slots)
    (h : env.ReadsText params args text R shapes a slots) : params.length ≤ slots := by
  obtain ⟨_, -, hwhole⟩ := h
  exact hwhole.le_slots hle

variable (hφ : ∀ a, φ id a = a)

include hφ

theorem again (hR : Portable C φ R R') (hnil : C []) (h : env.ReadsText params args text R shapes a slots)
    (made : Shapes) : env.ReadsText params args text R' made a slots := by
  obtain ⟨symbols, hsymbols, hwhole⟩ := h
  exact ⟨symbols, hsymbols, hwhole.again hφ hR hnil made⟩

/-- A text that is read to its end is read in front of anything that does not continue it. -/
theorem embeds (hparams : params.map (·.slot) = List.range params.length) (hR : Portable C φ R R)
    (hR' : Portable C φ R R') (hnil : C []) (h : env.ReadsText params args text R shapes a slots) :
    ∃ (symbols : Symbols) (ls : List Lexeme) (grow : Shapes → Shapes),
      Symbols.ofText params args = .ok symbols ∧ Scans text.toList ls ∧
      ∀ {t : Reading} {rest : List Lexeme}, t.Ahead (ls ++ rest) → params.length ≤ t.slots →
        Closes rest → C rest → ∃ t',
          R' (env.scope params symbols) t (φ (raise params.length (t.slots - params.length)) a) t' ∧
          t'.Ahead rest ∧ t'.slots = slots + (t.slots - params.length) ∧ t'.shapes = grow t.shapes := by
  obtain ⟨symbols, hsymbols, hwhole⟩ := h
  obtain ⟨ls, grow, hscans, hembeds⟩ := hwhole.embeds hφ hR hR' hnil
  have hsees : (env.scope params symbols).Sees (· < params.length) := scope_sees hparams hsymbols
  refine ⟨symbols, ls, grow, hsymbols, hscans, fun ht hle hrest hends => ?_⟩
  obtain ⟨t', hread, hlater⟩ := hembeds (Nat.le_refl _) (hsees.keeps _) ht hle hrest hends
  rw [hsees.raised_eq] at hread
  exact ⟨t', hread, hlater⟩

end ReadsText

/-- An expression read to the end of a text is taken from the front of other texts. -/
theorem ReadsText.takes {env : Environment} {params : List Param} {args : List Argument} {text : String}
    {n m k : Nat} {shapes : Shapes} {e : Expr} {slots : Nat} (hnm : n ≤ m)
    (hparams : params.map (·.slot) = List.range params.length)
    (h : env.ReadsText params args text (Reads (reader (level n) k)) shapes e slots) :
    ∃ (symbols : Symbols) (ls : List Lexeme) (grow : Shapes → Shapes),
      Symbols.ofText params args = .ok symbols ∧ Scans text.toList ls ∧
      ∀ (shift : Nat) (made : Shapes) (rest : List Lexeme), Closes rest → Stops k rest →
        Takes (reader (level m) k) (env.scope params symbols) (params.length + shift, made) ls
          (e.mapSlots (raise params.length shift)) (slots + shift, grow made) rest := by
  obtain ⟨symbols, ls, grow, hsymbols, hscans, hembeds⟩ :=
    h.embeds Expr.mapSlots_id hparams (reader_portable (Nat.le_refl n) k) (reader_portable hnm k) (.nil k)
  refine ⟨symbols, ls, grow, hsymbols, hscans, ?_⟩
  intro shift made rest hrest hstops t ht hmade
  obtain ⟨hslots, rfl⟩ := Prod.mk.inj hmade
  have hshift : t.slots - params.length = shift := by omega
  obtain ⟨t', hread, hahead, hslots', hshapes⟩ := hembeds ht (by omega) hrest hstops
  rw [hshift] at hread hslots'
  exact ⟨t', hread, hahead, Prod.ext hslots' hshapes⟩

end Environment

/-- A whole text whose phrases are nested in each other so many times at most. -/
def Grammar.wholeWithin (depth : Nat) (result : Option Ty) : Parse Expr := do
  let pos := (← token).pos
  let e ← (level depth).expression
  let converted ← typed pos (Typing.result · e result)
  require .done .syntaxError
  return converted

theorem Grammar.reads_wholeWithin {depth : Nat} {result : Option Ty} {scope : Scope} {s s' : Reading}
    {e : Expr} : Reads (wholeWithin depth result) scope s e s' ↔
      ∃ body, Reads (level depth).expression scope s body s' ∧
        Typing.result scope.catalog body result = .ok e ∧ s'.token.kind = .done := by
  simp only [wholeWithin, reads_bind, reads_token, reads_typed, reads_require, reads_pure]
  constructor
  · rintro ⟨_, _, ⟨rfl, rfl⟩, body, m, hbody, _, _, ⟨hresult, rfl⟩, _, _, ⟨hdone, rfl⟩, rfl, rfl⟩
    exact ⟨body, hbody, hresult, hdone⟩
  · rintro ⟨body, hbody, hresult, hdone⟩
    exact ⟨_, _, ⟨rfl, rfl⟩, body, s', hbody, _, _, ⟨hresult, rfl⟩, (), _, ⟨hdone, rfl⟩, rfl, rfl⟩

theorem Shaping.exec_fst_eq_ok {ε α : Type} {p : Shaping ε α} {shapes : Shapes} {a : α} :
    (p.exec shapes).1 = .ok a ↔ ∃ made, p.exec shapes = (.ok a, made) := by
  constructor
  · intro h
    exact ⟨_, Prod.ext h rfl⟩
  · rintro ⟨made, h⟩
    rw [h]

namespace Environment

/-- Compiles an expression whose phrases are nested in each other so many times at most. -/
def compileWithin (depth : Nat) (env : Environment) (params : List ParamDecl) (result : Option Ty)
    (text : String) (args : List Argument) : Shaping CompileError Lambda := do
  let bound := bindParams params
  let (body, slots) ← env.reading bound args text (Grammar.wholeWithin depth result)
  return ⟨bound, body, slots⟩

theorem compileWithin_maxDepth (env : Environment) (params : List ParamDecl) (result : Option Ty)
    (text : String) (args : List Argument) :
    env.compileWithin Grammar.maxDepth params result text args = env.compile params result text args := rfl

/-- A text compiles to an expression, with phrases nested so many times at most. -/
def CompilesWithin (depth : Nat) (env : Environment) (params : List ParamDecl) (result : Option Ty)
    (text : String) (args : List Argument) (l : Lambda) : Prop :=
  ∃ shapes, ((env.compileWithin depth params result text args).exec shapes).1 = .ok l

variable {env : Environment} {decls : List ParamDecl} {result : Option Ty} {text : String}
  {args : List Argument} {l : Lambda} {shapes : Shapes} {depth : Nat}

theorem Compiles.within (h : env.Compiles decls result text args l) :
    env.CompilesWithin Grammar.maxDepth decls result text args l := h

/-- A text compiles if it is an expression that can be made to have the type that is asked for. -/
theorem compileWithin_eq_ok :
    ((env.compileWithin depth decls result text args).exec shapes).1 = .ok l ↔
      l.params = bindParams decls ∧ ∃ body,
        env.ReadsText l.params args text (Reads (level depth).expression) shapes body l.slots ∧
        Typing.result env.catalog body result = .ok l.body := by
  rw [Shaping.exec_fst_eq_ok]
  constructor
  · rintro ⟨made, h⟩
    obtain ⟨⟨e, slots⟩, hread, rfl⟩ := Shaping.exec_map_eq_ok.mp h
    obtain ⟨symbols, after, hsymbols, hreads, rfl, -⟩ := reading_eq_ok.mp hread
    obtain ⟨_, s, hadvance, hwhole⟩ := reads_bind.mp hreads
    obtain ⟨body, hbody, hresult, hdone⟩ := reads_wholeWithin.mp hwhole
    exact ⟨rfl, body, ⟨symbols, hsymbols, s, after, hadvance, hbody, hdone, rfl⟩, hresult⟩
  · rintro ⟨hparams, body, ⟨symbols, hsymbols, s, after, hadvance, hbody, hdone, hslots⟩, hresult⟩
    rw [hparams] at hsymbols hadvance hbody
    refine ⟨after.shapes, Shaping.exec_map_eq_ok.mpr ⟨(l.body, l.slots), ?_, ?_⟩⟩
    · refine reading_eq_ok.mpr ⟨symbols, after, hsymbols, reads_bind.mpr ⟨(), s, hadvance, ?_⟩, hslots, rfl⟩
      exact reads_wholeWithin.mpr ⟨body, hbody, hresult, hdone⟩
    · rw [← hparams]

/-- A text that compiles does so from any shapes on, and where deeper nesting is allowed. -/
theorem CompilesWithin.compileWithin_eq_ok {depth' : Nat} (h : env.CompilesWithin depth decls result text args l)
    (hdepth : depth ≤ depth') (shapes : Shapes) :
    ((env.compileWithin depth' decls result text args).exec shapes).1 = .ok l := by
  obtain ⟨made, h⟩ := h
  obtain ⟨hparams, body, htext, hresult⟩ := Environment.compileWithin_eq_ok.mp h
  exact Environment.compileWithin_eq_ok.mpr
    ⟨hparams, body, htext.again Expr.mapSlots_id (expression_portable hdepth) (.nil 0) shapes, hresult⟩

theorem CompilesWithin.mono {depth' : Nat} (h : env.CompilesWithin depth decls result text args l)
    (hdepth : depth ≤ depth') : env.CompilesWithin depth' decls result text args l :=
  ⟨.empty, h.compileWithin_eq_ok hdepth .empty⟩

theorem Compiles.compile_eq_ok (h : env.Compiles decls result text args l) (shapes : Shapes) :
    ((env.compile decls result text args).exec shapes).1 = .ok l :=
  h.within.compileWithin_eq_ok (Nat.le_refl _) shapes

/-- A text whose lexemes are taken up to the end as an expression compiles to it. -/
theorem compiles_of_takes {symbols : Symbols} {ls : List Lexeme} {e : Expr} {slots : Nat} {shapes : Shapes}
    (hsymbols : Symbols.ofText (bindParams decls) args = .ok symbols) (hscans : Scans text.toList ls)
    (h : Takes expression (env.scope (bindParams decls) symbols) (decls.length, .empty) ls e (slots, shapes) [])
    (hresult : ∀ t ∈ result, e.ty = t) : env.Compiles decls result text args ⟨bindParams decls, e, slots⟩ := by
  have hwhole := takes_whole h hresult
  rw [← length_bindParams decls] at hwhole
  obtain ⟨htokens, hstop⟩ := hscans 0
  have hreading := reading_of_takes hsymbols htokens hstop hwhole
  exact ⟨.empty, congrArg Prod.fst (Shaping.exec_map_eq_ok.mpr ⟨_, hreading, rfl⟩)⟩

theorem Compiles.not_blank (h : env.Compiles decls result text args l) : Text.isBlankText text = false := by
  obtain ⟨shapes, h⟩ := h.within
  obtain ⟨-, body, htext, -⟩ := Environment.compileWithin_eq_ok.mp h
  exact htext.not_blank fun h => ((level_derived maxDepth).expression h).2

/-! ### Orderings -/

/-- The keys of an ordering: expressions of one parameter that share their slots. -/
def sortKeys (element : Ty) (slots : Nat) (xs : List (Expr × Bool)) : List SortKey :=
  xs.map fun (body, ascending) => ⟨⟨bindParams [⟨none, element⟩], body, slots⟩, ascending⟩

theorem compileOrdering_eq_ok {element : Ty} {keys : List SortKey} :
    ((env.compileOrdering element text args).exec shapes).1 = .ok keys ↔
      ∃ xs slots, env.ReadsText (bindParams [⟨none, element⟩]) args text ReadsKeys shapes xs slots ∧
        keys = sortKeys element slots xs := by
  rw [Shaping.exec_fst_eq_ok]
  constructor
  · rintro ⟨made, h⟩
    obtain ⟨⟨xs, slots⟩, hread, rfl⟩ := Shaping.exec_map_eq_ok.mp h
    obtain ⟨symbols, after, hsymbols, hreads, rfl, -⟩ := reading_eq_ok.mp hread
    obtain ⟨_, s, hadvance, hordering⟩ := reads_bind.mp hreads
    obtain ⟨hkeys, hdone⟩ := reads_ordering.mp hordering
    exact ⟨xs, after.slots, ⟨symbols, hsymbols, s, after, hadvance, hkeys, hdone, rfl⟩, rfl⟩
  · rintro ⟨xs, slots, ⟨symbols, hsymbols, s, after, hadvance, hkeys, hdone, hslots⟩, rfl⟩
    refine ⟨after.shapes, Shaping.exec_map_eq_ok.mpr ⟨(xs, slots), ?_, rfl⟩⟩
    refine reading_eq_ok.mpr ⟨symbols, after, hsymbols, reads_bind.mpr ⟨(), s, hadvance, ?_⟩, hslots, rfl⟩
    exact reads_ordering.mpr ⟨hkeys, hdone⟩

section

variable {element : Ty} {keys : List SortKey}

theorem CompilesOrdering.compileOrdering_eq_ok (h : env.CompilesOrdering element text args keys)
    (shapes : Shapes) : ((env.compileOrdering element text args).exec shapes).1 = .ok keys := by
  obtain ⟨made, h⟩ := h
  obtain ⟨xs, slots, htext, rfl⟩ := Environment.compileOrdering_eq_ok.mp h
  have hid : ∀ xs, List.map (mapKey id) xs = xs := fun xs => by rw [mapKey_id, List.map_id]
  exact Environment.compileOrdering_eq_ok.mpr
    ⟨xs, slots, htext.again hid keys_portable .nil shapes, rfl⟩

theorem CompilesOrdering.not_blank (h : env.CompilesOrdering element text args keys) :
    Text.isBlankText text = false := by
  obtain ⟨shapes, h⟩ := h
  obtain ⟨xs, slots, htext, -⟩ := Environment.compileOrdering_eq_ok.mp h
  exact htext.not_blank ReadsKeys.left

end

end Environment

end RowQuery
