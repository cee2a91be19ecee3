import RowQuery.Proofs.Compilation
import RowQuery.Proofs.Formula

/-!
Phrases at the front of a text. A phrase is taken from the lexemes that are left, whatever comes after it
and does not continue it. The levels of precedence are one family of readers: a phrase of a level is one of
every looser level, and a chain of operands is taken operator by operator.
-/

namespace RowQuery

open Parse Grammar

/-- A token shows what is left of a text: its first lexeme or that there is none. -/
def Token.Shows (t : Token) : List Lexeme → Prop
  | [] => t.kind = .done
  | l :: _ => t.lexeme = l

namespace Lexeme

def dot : Lexeme := ⟨.dot, "."⟩
def comma : Lexeme := ⟨.comma, ","⟩
def openBracket : Lexeme := ⟨.openBracket, "["⟩
def closeBracket : Lexeme := ⟨.closeBracket, "]"⟩

/-- The kind of the first token of lexemes. -/
def first : List Lexeme → TokenKind
  | [] => .done
  | l :: _ => l.kind

theorem kind_of_shows {t : Token} {ls : List Lexeme} (h : t.Shows ls) : t.kind = first ls := by
  cases ls with
  | nil => exact h
  | cons l ls => exact congrArg Lexeme.kind h

end Lexeme

open Lexeme

/-- The lexemes that are left of a text, the one at hand included, up to an end without fault. -/
structure Reading.Ahead (s : Reading) (ls : List Lexeme) : Prop where
  shows : s.token.Shows ls
  rest : s.rest.map Token.lexeme = ls.tail
  finished : ∃ pos, s.stop = .finished pos

/-- What a reading has given out and made so far. -/
def Reading.made (s : Reading) : Nat × Shapes := (s.slots, s.shapes)

/-- A reader takes lexemes from the front of what is left, for a result, and gives out slots and makes
shapes. -/
def Takes {α : Type} (p : Parse α) (scope : Scope) (m : Nat × Shapes) (ls : List Lexeme) (a : α)
    (m' : Nat × Shapes) (rest : List Lexeme) : Prop :=
  ∀ s : Reading, s.Ahead (ls ++ rest) → s.made = m →
    ∃ s', Reads p scope s a s' ∧ s'.Ahead rest ∧ s'.made = m'

section

variable {α β : Type} {scope : Scope} {ls ms rest : List Lexeme} {l : Lexeme} {m m' m'' : Nat × Shapes}

theorem exists_advance (scope : Scope) {s : Reading} (hrest : s.rest.map Token.lexeme = rest)
    (hfinished : ∃ pos, s.stop = .finished pos) :
    ∃ s', Reads advance scope s () s' ∧ s'.Ahead rest ∧ s'.made = s.made := by
  obtain ⟨pos, hstop⟩ := hfinished
  cases htokens : s.rest with
  | nil =>
      rw [htokens] at hrest
      subst hrest
      refine ⟨_, reads_advance_iff.mpr (Or.inr ⟨pos, htokens, hstop, rfl⟩), ⟨rfl, ?_, pos, hstop⟩, rfl⟩
      simp [htokens]
  | cons t ts =>
      rw [htokens] at hrest
      subst hrest
      exact ⟨_, reads_advance_iff.mpr (Or.inl ⟨t, ts, htokens, rfl⟩), ⟨rfl, rfl, pos, hstop⟩, rfl⟩

theorem takes_advance : Takes advance scope m [l] () m rest := by
  intro s hs hm
  obtain ⟨s', hs', hahead, hmade⟩ := exists_advance scope hs.rest hs.finished
  exact ⟨s', hs', hahead, hmade.trans hm⟩

theorem takes_pure (a : α) : Takes (pure a) scope m [] a m rest :=
  fun s hs hm => ⟨s, reads_pure.mpr ⟨rfl, rfl⟩, hs, hm⟩

theorem Takes.bind {p : Parse α} {f : α → Parse β} {a : α} {b : β}
    (hp : Takes p scope m ls a m' (ms ++ rest)) (hf : Takes (f a) scope m' ms b m'' rest) :
    Takes (p >>= f) scope m (ls ++ ms) b m'' rest := by
  intro s hs hm
  rw [List.append_assoc] at hs
  obtain ⟨u, hu, hahead, hmade⟩ := hp s hs hm
  obtain ⟨s', hs', hlater⟩ := hf u hahead hmade
  exact ⟨s', reads_bind.mpr ⟨a, u, hu, hs'⟩, hlater⟩

/-- A reader after which nothing more is taken. -/
theorem Takes.last {p : Parse α} {f : α → Parse β} {a : α} {b : β} (hp : Takes p scope m ls a m' rest)
    (hf : Takes (f a) scope m' [] b m'' rest) : Takes (p >>= f) scope m ls b m'' rest := by
  rw [← List.append_nil ls]
  exact Takes.bind (by rwa [List.nil_append]) hf

theorem Takes.look {f : Token → Parse α} {a : α}
    (h : ∀ t : Token, t.Shows (ls ++ rest) → Takes (f t) scope m ls a m' rest) :
    Takes (token >>= f) scope m ls a m' rest := by
  intro s hs hm
  obtain ⟨s', hs', hlater⟩ := h s.token hs.shows s hs hm
  exact ⟨s', reads_bind.mpr ⟨s.token, s, reads_token.mpr ⟨rfl, rfl⟩, hs'⟩, hlater⟩

theorem Takes.skip {p : Parse α} {a : α} (h : Takes p scope m ls a m' rest) :
    Takes (advance >>= fun _ => p) scope m (l :: ls) a m' rest := takes_advance.bind h

theorem Takes.ifAt {k : TokenKind} {p q : Parse α} {a : α} (hk : first (ls ++ rest) = k)
    (h : Takes p scope m ls a m' rest) :
    Takes (at? k >>= fun found => if found then p else q) scope m ls a m' rest := by
  intro s hs hm
  obtain ⟨s', hs', hlater⟩ := h s hs hm
  refine ⟨s', reads_bind.mpr ⟨true, s, reads_at?.mpr ⟨?_, rfl⟩, hs'⟩, hlater⟩
  rw [kind_of_shows hs.shows, hk, BEq.rfl]

theorem Takes.ifNotAt {k : TokenKind} {p q : Parse α} {a : α} (hk : first (ls ++ rest) ≠ k)
    (h : Takes q scope m ls a m' rest) :
    Takes (at? k >>= fun found => if found then p else q) scope m ls a m' rest := by
  intro s hs hm
  obtain ⟨s', hs', hlater⟩ := h s hs hm
  refine ⟨s', reads_bind.mpr ⟨false, s, reads_at?.mpr ⟨?_, rfl⟩, hs'⟩, hlater⟩
  rw [kind_of_shows hs.shows, beq_eq_false_iff_ne.mpr hk]

theorem Takes.expected {k : TokenKind} {fault : Fault} {p : Parse α} {a : α} (hk : l.kind = k)
    (h : Takes p scope m ls a m' rest) :
    Takes (expect k fault >>= fun _ => p) scope m (l :: ls) a m' rest := by
  intro s hs hm
  obtain ⟨u, hu, hahead, hmade⟩ := exists_advance scope hs.rest hs.finished
  obtain ⟨s', hs', hlater⟩ := h u hahead (hmade.trans hm)
  have hexpect : Reads (expect k fault) scope s () u :=
    reads_expect.mpr ⟨(kind_of_shows hs.shows).trans hk, hu⟩
  exact ⟨s', reads_bind.mpr ⟨(), u, hexpect, hs'⟩, hlater⟩

theorem Takes.required {k : TokenKind} {fault : Fault} {p : Parse α} {a : α} (hk : first (ls ++ rest) = k)
    (h : Takes p scope m ls a m' rest) : Takes (require k fault >>= fun _ => p) scope m ls a m' rest := by
  intro s hs hm
  obtain ⟨s', hs', hlater⟩ := h s hs hm
  have hrequire : Reads (require k fault) scope s () s :=
    reads_require.mpr ⟨(kind_of_shows hs.shows).trans hk, rfl⟩
  exact ⟨s', reads_bind.mpr ⟨(), s, hrequire, hs'⟩, hlater⟩

theorem takes_typed {pos : Nat} {rule : Catalog → Except Fault Expr} {e : Expr}
    (h : rule scope.catalog = .ok e) : Takes (typed pos rule) scope m [] e m rest :=
  fun s hs hm => ⟨s, reads_typed.mpr ⟨h, rfl⟩, hs, hm⟩

/-- The token at hand may be replaced by another, as if that were written. -/
theorem Takes.retoken {t : Token} {p : Parse α} {a : α} (h : Takes p scope m (t.lexeme :: ls) a m' rest) :
    Takes (modify (fun s => { s with token := t }) >>= fun _ => p) scope m (l :: ls) a m' rest := by
  intro s hs hm
  have hahead : Reading.Ahead { s with token := t } (t.lexeme :: ls ++ rest) := ⟨rfl, hs.rest, hs.finished⟩
  obtain ⟨s', hs', hlater⟩ := h _ hahead hm
  exact ⟨s', reads_bind.mpr ⟨(), _, reads_modify.mpr rfl, hs'⟩, hlater⟩

end

/-! ### Levels of precedence -/

namespace Grammar

/-- The operators of a level. -/
def operators : Nat → Token → Option (Token → Expr → Expr → Parse Expr)
  | 1, t => if t.kind = .doubleBar ∨ t.isWord "or" then some (joining (Typing.logical · .orElse)) else none
  | 2, t =>
    if t.kind = .doubleAmpersand ∨ t.isWord "and" then some (joining (Typing.logical · .andAlso)) else none
  | 3, t => (comparisonOperator? t.kind).map fun op => joining (Typing.comparison · op)
  | 4, t =>
    match t.kind with
    | .plus => some (joining Typing.sum)
    | .minus => some (joining (Typing.arithmetic · Signatures.subtract .subtract))
    | .ampersand => some fun _ left right => return Typing.concatenation left right
    | _ => none
  | 5, t => (multiplicativeOperator? t).map fun op => joining (Typing.arithmetic · Signatures.arithmetic op)
  | _, _ => none

/-- The reader of the phrases of a level and of the tighter ones. -/
def reader (inner : Level) : Nat → Parse Expr
  | 0 => conditional inner
  | 1 => disjunction inner
  | 2 => conjunction inner
  | 3 => comparison inner
  | 4 => additive inner
  | 5 => multiplicative inner
  | _ => unary inner

variable {scope : Scope} {inner : Level}

theorem reader_eq_chain {k : Nat} (hk : 1 ≤ k ∧ k ≤ 5) :
    reader inner k = chain (reader inner (k + 1)) (operators k) := by
  obtain rfl | rfl | rfl | rfl | rfl : k = 1 ∨ k = 2 ∨ k = 3 ∨ k = 4 ∨ k = 5 := by omega
  all_goals rfl

theorem reader_eq_unary {k : Nat} (hk : 6 ≤ k) : reader inner k = unary inner := by
  obtain ⟨j, rfl⟩ := Nat.exists_eq_add_of_le' hk
  rfl

theorem reader_derived (hinner : inner.Derived) (k : Nat) : Derived (reader inner k) := by
  unfold reader
  split
  · exact conditional_derived hinner
  · exact disjunction_derived hinner
  · exact conjunction_derived hinner
  · exact comparison_derived hinner
  · exact additive_derived hinner
  · exact multiplicative_derived hinner
  · exact unary_derived hinner

/-- An operator is combined with its operands without reading on. -/
theorem operators_reads {k : Nat} {t : Token} {combine : Token → Expr → Expr → Parse Expr} {l r e : Expr}
    {s s' : Reading} (hop : operators k t = some combine) (h : Reads (combine t l r) scope s e s') :
    s' = s := by
  have hjoining : ∀ {rule}, Reads (joining rule t l r) scope s e s' → s' = s :=
    fun h => (reads_typed.mp h).2.symm
  unfold operators at hop
  split at hop
  · split at hop <;> cases hop
    exact hjoining h
  · split at hop <;> cases hop
    exact hjoining h
  · obtain ⟨_, -, rfl⟩ := Option.map_eq_some_iff.mp hop
    exact hjoining h
  · split at hop <;> cases hop
    · exact hjoining h
    · exact hjoining h
    · exact (reads_pure.mp h).2.symm
  · obtain ⟨_, -, rfl⟩ := Option.map_eq_some_iff.mp hop
    exact hjoining h
  · cases hop

/-- A phrase of a level of operators is a tighter one, joined with others for as long as there are operators. -/
theorem reads_reader (hinner : inner.Derived) {k : Nat} (hk : 1 ≤ k ∧ k ≤ 5) {s s' : Reading} {e : Expr} :
    Reads (reader inner k) scope s e s' ↔ ∃ a m, Reads (reader inner (k + 1)) scope s a m ∧
      Iterates (nextOperand (reader inner (k + 1)) (operators k)) scope a m e s' := by
  rw [reader_eq_chain hk]
  exact reads_chain (fun h => (reader_derived hinner _ h).2) operators_reads

theorem operators_lexeme {op : BinaryOp} {t : Token} (h : t.lexeme = op.lexeme) :
    operators op.precedence t = some (joining op.rule) := by
  have hkind : t.kind = op.lexeme.kind := congrArg Lexeme.kind h
  cases op <;>
    simp [operators, BinaryOp.precedence, hkind, BinaryOp.lexeme, comparisonOperator?,
      multiplicativeOperator?] <;> rfl

/-- An operator belongs to no level but its own. -/
theorem operators_lexeme_ne {op : BinaryOp} {t : Token} {k : Nat} (h : t.lexeme = op.lexeme)
    (hk : k ≠ op.precedence) : operators k t = none := by
  have hkind : t.kind = op.lexeme.kind := congrArg Lexeme.kind h
  unfold operators
  split <;> cases op <;>
    simp_all [BinaryOp.precedence, BinaryOp.lexeme, comparisonOperator?, multiplicativeOperator?, Token.isWord]

theorem operators_eq_none {t : Token} (k : Nat)
    (ht : t.kind ∈ [TokenKind.closeParen, .comma, .colon, .question, .closeBracket, .done]) :
    operators k t = none := by
  have hother : t.isWord "or" = false ∧ t.isWord "and" = false ∧ t.isWord "mod" = false := by
    simp only [List.mem_cons, List.not_mem_nil, or_false] at ht
    rcases ht with hk | hk | hk | hk | hk | hk <;> simp [Token.isWord, hk]
  simp only [List.mem_cons, List.not_mem_nil, or_false] at ht
  unfold operators
  split <;> rcases ht with hk | hk | hk | hk | hk | hk <;>
    simp [hk, hother, comparisonOperator?, multiplicativeOperator?]

/-- What follows does not continue a phrase of a level. -/
structure Stops (k : Nat) (rest : List Lexeme) : Prop where
  member : first rest ≠ .dot ∧ first rest ≠ .openBracket
  operator : ∀ j, k ≤ j → ∀ t : Token, t.Shows rest → operators j t = none
  question : k = 0 → first rest ≠ .question

namespace Stops

variable {k : Nat} {rest : List Lexeme}

theorem mono (h : Stops k rest) {j : Nat} (hj : k ≤ j) : Stops j rest :=
  ⟨h.member, fun i hi => h.operator i (Nat.le_trans hj hi), fun h0 => h.question (by omega)⟩

/-- No operator belongs to the levels above those of the operators. -/
theorem of_member (h : first rest ≠ .dot ∧ first rest ≠ .openBracket) : Stops 6 rest where
  member := h
  operator j hj t _ := by
    obtain ⟨i, rfl⟩ := Nat.exists_eq_add_of_le' hj
    rfl
  question h0 := by cases h0

theorem tight (h : Stops k rest) : Stops 6 rest := of_member h.member

theorem of_first (h : first rest = .closeParen ∨ first rest = .colon ∨ first rest = .done) : Stops k rest where
  member := by rcases h with h | h | h <;> simp [h]
  operator j _ t ht := by
    refine operators_eq_none j ?_
    rw [kind_of_shows ht]
    rcases h with h | h | h <;> simp [h]
  question _ := by rcases h with h | h | h <;> simp [h]

theorem nil (k : Nat) : Stops k [] := of_first (Or.inr (Or.inr rfl))

theorem of_comma (h : first rest = .comma) : Stops k rest where
  member := by simp [h]
  operator j _ t ht := operators_eq_none j (by simp [kind_of_shows ht, h])
  question _ := by simp [h]

theorem of_closeBracket (h : first rest = .closeBracket) : Stops k rest where
  member := by simp [h]
  operator j _ t ht := operators_eq_none j (by simp [kind_of_shows ht, h])
  question _ := by simp [h]

/-- A word that is no operator. -/
theorem of_word {l : Lexeme} (hkind : l.kind = .identifier)
    (hword : ∀ op ∈ ["or", "and", "mod"], Text.sameName l.text op = false) : Stops k (l :: rest) where
  member := by simp [first, hkind]
  operator j _ t ht := by
    have hlexeme : t.lexeme = l := ht
    have htkind : t.kind = .identifier := (congrArg Lexeme.kind hlexeme).trans hkind
    have htext : t.text = l.text := congrArg Lexeme.text hlexeme
    have hother : ∀ op ∈ ["or", "and", "mod"], t.isWord op = false := fun op hop => by
      rw [Token.isWord, htext, hword op hop, Bool.and_false]
    unfold operators
    split <;> simp [htkind, hother, comparisonOperator?, multiplicativeOperator?]
  question _ := by simp [first, hkind]

theorem of_question (h : first rest = .question) (hk : 0 < k) : Stops k rest where
  member := by simp [h]
  operator j _ t ht := operators_eq_none j (by simp [kind_of_shows ht, h])
  question h0 := absurd h0 (Nat.ne_of_gt hk)

theorem of_lexeme {op : BinaryOp} (hk : op.precedence < k) : Stops k (op.lexeme :: rest) where
  member := by cases op <;> simp [first, BinaryOp.lexeme]
  operator j hj t ht := operators_lexeme_ne ht (by omega)
  question h0 := by omega

end Stops

/-! ### Operands and operators -/

/-- A reader takes the first operand and the operators and operands after it that make up lexemes, and is
ready for another operator. -/
def Gathers (operand : Parse Expr) (operator? : Token → Option (Token → Expr → Expr → Parse Expr))
    (scope : Scope) (m : Nat × Shapes) (ls : List Lexeme) (e : Expr) (m' : Nat × Shapes)
    (rest : List Lexeme) : Prop :=
  ∀ s : Reading, s.Ahead (ls ++ rest) → s.made = m → ∃ a u s', Reads operand scope s a u ∧
    (∀ z final, Iterates (nextOperand operand operator?) scope e s' z final →
      Iterates (nextOperand operand operator?) scope a u z final) ∧
    s'.Ahead rest ∧ s'.made = m'

section

variable {operand : Parse Expr} {operator? : Token → Option (Token → Expr → Expr → Parse Expr)}
  {ls ms rest : List Lexeme} {l : Lexeme} {e right joined : Expr} {m m' m'' : Nat × Shapes}

theorem Gathers.of_takes (h : Takes operand scope m ls e m' rest) :
    Gathers operand operator? scope m ls e m' rest := by
  intro s hs hm
  obtain ⟨s', hs', hlater⟩ := h s hs hm
  exact ⟨e, s', s', hs', fun _ _ h => h, hlater⟩

theorem Gathers.next {combine : Token → Expr → Expr → Parse Expr}
    (h : Gathers operand operator? scope m ls e m' (l :: (ms ++ rest)))
    (hop : ∀ t : Token, t.lexeme = l → operator? t = some combine ∧
      Takes (combine t e right) scope m'' [] joined m'' rest)
    (hright : Takes operand scope m' ms right m'' rest) :
    Gathers operand operator? scope m (ls ++ l :: ms) joined m'' rest := by
  intro s hs hm
  rw [List.append_assoc] at hs
  obtain ⟨a, u, v, ha, hsteps, haheadv, hmadev⟩ := h s hs hm
  obtain ⟨w, hw, haheadw, hmadew⟩ := exists_advance scope haheadv.rest haheadv.finished
  obtain ⟨x, hx, haheadx, hmadex⟩ := hright w haheadw (hmadew.trans hmadev)
  obtain ⟨hoperator, hcombine⟩ := hop v.token haheadv.shows
  obtain ⟨y, hy, hlater⟩ := hcombine x haheadx hmadex
  refine ⟨a, u, y, ha, ?_, hlater⟩
  intro z final hfinal
  refine hsteps z final (.next ?_ hfinal)
  exact reads_nextOperand.mpr (Or.inl ⟨combine, w, right, x, joined, hoperator, hw, hx, hy, rfl⟩)

theorem Gathers.takes {k : Nat} (hinner : inner.Derived) (hk : 1 ≤ k ∧ k ≤ 5)
    (h : Gathers (reader inner (k + 1)) (operators k) scope m ls e m' rest) (hstops : Stops k rest) :
    Takes (reader inner k) scope m ls e m' rest := by
  intro s hs hm
  obtain ⟨a, u, s', ha, hsteps, hlater⟩ := h s hs hm
  have hstop : Reads (nextOperand (reader inner (k + 1)) (operators k) e) scope s' none s' :=
    reads_nextOperand.mpr (Or.inr ⟨hstops.operator k (Nat.le_refl k) _ hlater.1.shows, rfl, rfl⟩)
  exact ⟨s', (reads_reader hinner hk).mpr ⟨a, u, ha, hsteps e s' (.stop hstop)⟩, hlater⟩

end

/-! ### Phrases without operators between operands -/

section

variable {ls ms ns rest : List Lexeme} {e : Expr} {m m' m₁ m₂ : Nat × Shapes}

/-- A member follows after a dot and an element after a bracket. -/
theorem reads_nextMember_none {s s' : Reading} : Reads (nextMember inner e) scope s none s' ↔
    (s.token.kind ≠ .dot ∧ s.token.kind ≠ .openBracket) ∧ s' = s := by
  simp only [nextMember, reads_bind, reads_token]
  constructor
  · rintro ⟨_, _, ⟨rfl, rfl⟩, h⟩
    split at h
    · simp only [reads_bind, reads_pure] at h
      obtain ⟨_, _, _, _, _, _, hnone, _⟩ := h
      cases hnone
    · simp only [reads_bind, reads_pure] at h
      obtain ⟨_, _, _, hnone, _⟩ := h
      cases hnone
    · rename_i hdot hbracket
      exact ⟨⟨hdot, hbracket⟩, (reads_pure.mp h).2.symm⟩
  · rintro ⟨⟨hdot, hbracket⟩, rfl⟩
    refine ⟨_, _, ⟨rfl, rfl⟩, ?_⟩
    split
    · contradiction
    · contradiction
    · exact reads_pure.mpr ⟨rfl, rfl⟩

/-- No member follows where nothing continues an operand. -/
theorem takes_members_nil (hinner : inner.Derived) (hstops : Stops 6 rest) :
    Takes (repeatStep (nextMember inner) e) scope m [] e m rest := by
  intro s hs hm
  have hkind : s.token.kind = first rest := kind_of_shows hs.shows
  have hmember := hstops.member
  rw [← hkind] at hmember
  exact ⟨s, (reads_repeatStep (nextMember_left hinner)).mpr (.stop (reads_nextMember_none.mpr ⟨hmember, rfl⟩)), hs, hm⟩

theorem takes_primary (hinner : inner.Derived) (h : Takes (primaryStart inner) scope m ls e m' rest)
    (hstops : Stops 6 rest) : Takes (primary inner) scope m ls e m' rest :=
  h.last (takes_members_nil hinner hstops)

theorem takes_unary_of_primary (h : Takes (primary inner) scope m ls e m' rest)
    (hop : ∀ t : Token, t.Shows (ls ++ rest) → unaryOperator? t = none) :
    Takes (unary inner) scope m ls e m' rest := by
  refine Takes.look fun t ht => ?_
  rw [hop t ht]
  exact h

theorem takes_parens_start (h : Takes inner.expression scope m ls e m' (closeParen :: rest)) :
    Takes (primaryStart inner) scope m (openParen :: (ls ++ [closeParen])) e m' rest := by
  refine Takes.look fun t ht => ?_
  have hkind : t.kind = .openParen := kind_of_shows ht
  simp only [hkind]
  exact Takes.skip (h.bind ((takes_pure e).expected rfl))

theorem unaryOperator?_openParen {t : Token} (h : t.Shows (openParen :: ls)) : unaryOperator? t = none := by
  have hkind : t.kind = .openParen := kind_of_shows h
  simp [unaryOperator?, hkind, Token.isWord]

theorem takes_parens (hinner : inner.Derived)
    (h : Takes inner.expression scope m ls e m' (closeParen :: rest)) (hstops : Stops 6 rest) :
    Takes (unary inner) scope m (openParen :: (ls ++ [closeParen])) e m' rest :=
  takes_unary_of_primary (takes_primary hinner (takes_parens_start h) hstops) fun _ => unaryOperator?_openParen

theorem takes_sign {op : UnaryOp} {operand : Expr} (h : Takes inner.operand scope m ls operand m' rest)
    (hfirst : op = .negate → first (ls ++ rest) ≠ .integerLiteral ∧ first (ls ++ rest) ≠ .realLiteral)
    (htyped : ∀ symbol, Typing.unary scope.catalog op symbol operand = .ok e) :
    Takes (unary inner) scope m (op.lexeme :: ls) e m' rest := by
  refine Takes.look fun t ht => ?_
  have hkind : t.kind = op.lexeme.kind := kind_of_shows ht
  have hop : unaryOperator? t = some op := by cases op <;> simp [unaryOperator?, hkind, UnaryOp.lexeme]
  rw [hop]
  refine (Takes.look fun next hnext => ?_).skip
  rw [if_neg]
  · exact h.last (takes_typed (htyped t.text))
  · rw [kind_of_shows hnext]
    rintro ⟨hnegate, hliteral⟩
    exact hliteral.elim (hfirst hnegate).1 (hfirst hnegate).2

/-- The negation of a truth value. -/
theorem takes_negation {operand : Expr} (h : Takes inner.operand scope m ls operand m' rest)
    (hty : operand.ty = .boolean) :
    Takes (unary inner) scope m (UnaryOp.not.lexeme :: ls) (.unary .boolean .not operand) m' rest := by
  refine takes_sign h (fun hnegate => by cases hnegate) fun symbol => ?_
  rw [Typing.unary_exact symbol (Or.inr ⟨rfl, hty⟩), hty]

theorem takes_conditional_of_disjunction (h : Takes (disjunction inner) scope m ls e m' rest)
    (hstops : Stops 0 rest) : Takes (conditional inner) scope m ls e m' rest :=
  Takes.look fun _ _ => h.last ((takes_pure e).ifNotAt (hstops.question rfl))

theorem takes_conditional {test yes no : Expr}
    (htest : Takes (disjunction inner) scope m ls test m₁ (question :: (ms ++ colon :: ns) ++ rest))
    (hyes : Takes inner.expression scope m₁ ms yes m₂ (colon :: ns ++ rest))
    (hno : Takes inner.expression scope m₂ ns no m' rest)
    (htyped : Typing.conditional scope.catalog test yes no = .ok e) :
    Takes (conditional inner) scope m (ls ++ question :: (ms ++ colon :: ns)) e m' rest := by
  refine Takes.look fun t _ => htest.bind ?_
  have hbranches : Takes (do
      expect .colon .colonExpected
      let no ← inner.expression
      typed t.pos (Typing.conditional · test yes no)) scope m₂ (colon :: ns) e m' rest :=
    (hno.last (takes_typed htyped)).expected rfl
  exact (hyes.bind hbranches).skip.ifAt rfl

theorem takes_looser (hinner : inner.Derived) {k : Nat}
    (h : Takes (reader inner (k + 1)) scope m ls e m' rest) (hstops : Stops k rest) :
    Takes (reader inner k) scope m ls e m' rest := by
  rcases Nat.lt_or_ge k 6 with hk | hk
  · cases k with
    | zero => exact takes_conditional_of_disjunction h hstops
    | succ k => exact (Gathers.of_takes h).takes hinner (by omega) hstops
  · rw [reader_eq_unary hk]
    rwa [reader_eq_unary (by omega)] at h

/-- A phrase of a level is one of every looser level that nothing continues. -/
theorem takes_descend (hinner : inner.Derived) {j k : Nat}
    (h : Takes (reader inner k) scope m ls e m' rest) (hj : j ≤ k) (hstops : Stops j rest) :
    Takes (reader inner j) scope m ls e m' rest := by
  obtain ⟨d, rfl⟩ := Nat.exists_eq_add_of_le hj
  induction d with
  | zero => exact h
  | succ d ih => exact ih (takes_looser hinner h (hstops.mono (by omega))) (by omega)

end

end Grammar

/-! ### Whole texts -/

theorem takes_whole {scope : Scope} {m m' : Nat × Shapes} {ls : List Lexeme} {e : Expr} {result : Option Ty}
    (h : Takes Grammar.expression scope m ls e m' []) (hresult : ∀ t ∈ result, e.ty = t) :
    Takes (whole result) scope m ls e m' [] := by
  have htyped : Typing.result scope.catalog e result = .ok e := by
    cases result with
    | none => rfl
    | some t => simp [Typing.result, Catalog.promote?, hresult t rfl]
  refine Takes.look fun t _ => h.last ?_
  exact Takes.last (takes_typed htyped) ((takes_pure e).required rfl)

/-- A text whose lexemes a reader takes up to the end is read. -/
theorem Environment.reading_of_takes {α : Type} {env : Environment} {params : List Param}
    {args : List Argument} {text : String} {symbols : Symbols} {phrase : Parse α} {ls : List Lexeme} {a : α}
    {slots : Nat} {shapes shapes' : Shapes} (hsymbols : Symbols.ofText params args = .ok symbols)
    (htokens : (scan text).tokens.map Token.lexeme = ls) (hstop : ∃ pos, (scan text).stop = .finished pos)
    (h : Takes phrase (env.scope params symbols) (params.length, shapes) ls a (slots, shapes') []) :
    (env.reading params args text phrase).exec shapes = (.ok (a, slots), shapes') := by
  have hadvance : ∃ s, Reads advance (env.scope params symbols) (start params text shapes) () s ∧
      s.Ahead ls ∧ s.made = (params.length, shapes) := exists_advance _ htokens hstop
  obtain ⟨s, hs, hahead, hmade⟩ := hadvance
  obtain ⟨after, hafter, -, hmade'⟩ := h s (by rwa [List.append_nil]) hmade
  obtain ⟨hslots, hshapes⟩ := Prod.mk.inj hmade'
  exact reading_eq_ok.mpr ⟨symbols, after, hsymbols, reads_bind.mpr ⟨(), s, hs, hafter⟩, hslots, hshapes⟩

end RowQuery
