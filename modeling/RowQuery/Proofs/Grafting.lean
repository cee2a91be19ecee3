import RowQuery.Proofs.Phrases
import RowQuery.Proofs.Substitution

/-!
Texts inside other texts. What reads a text up to its end reads it in the same way up to a token that does
not continue it, with more slots in use before it, with other shapes made before it, and with more room for
nesting. Two readings run side by side: whatever the first one does, the second one does with the slots
that are given out inside the text moved up. A phrase that runs to the end of the text is the only one that
depends on what comes after it, so what is asked of the end is a condition on the state that is left.
-/

namespace RowQuery

open Parse Grammar Lexeme
open RowQuery.Expr (mapSlots)

/-- The tokens that may come after a text that is an operand of a comparison: no name, literal, sign or opening
bracket, and no operator that binds more tightly than a comparison. -/
def Grammar.ends : List TokenKind :=
  [.done, .closeParen, .comma, .equal, .doubleEqual, .exclamationEqual, .lessGreater, .greaterThan,
    .greaterThanEqual, .lessThan, .lessThanEqual]

/-- A token that may come after a text is no operator between its operands. -/
theorem Grammar.operators_of_ends {k : Nat} (hk : 4 ≤ k) {t : Token} (ht : t.kind ∈ ends) :
    operators k t = none := by
  simp only [ends, List.mem_cons, List.not_mem_nil, or_false] at ht
  unfold operators
  split
  · omega
  · omega
  · omega
  · rcases ht with h | h | h | h | h | h | h | h | h | h | h <;> simp [h]
  · rcases ht with h | h | h | h | h | h | h | h | h | h | h <;>
      simp [h, multiplicativeOperator?, Token.isWord]
  · rfl

/-- The tokens that may come after a text that stands inside another one: those, the operators of arithmetic, and the
dot before a member. -/
def Grammar.closing : List TokenKind :=
  ends ++ ([.plus, .minus, .asterisk, .slash, .percent, .dot] : List TokenKind)

/-- What may come after a text that stands inside another one: one of these tokens, or a word. -/
def Grammar.Closes (after : List Lexeme) : Prop := first after ∈ closing ∨ first after = .identifier

theorem Token.isWord_congr {t u : Token} (h : t.lexeme = u.lexeme) (word : String) :
    t.isWord word = u.isWord word := by
  simp only [Token.lexeme, Lexeme.mk.injEq] at h
  simp only [Token.isWord, h]

namespace Grammar.Closes

variable {after : List Lexeme}

theorem of_closing (h : first after ∈ closing) : Closes after := Or.inl h

theorem of_first (h : first after ∈ ends) : Closes after := of_closing (List.mem_append_left _ h)

theorem of_word {l : Lexeme} {ls : List Lexeme} (h : l.kind = .identifier) : Closes (l :: ls) := Or.inr h

end Grammar.Closes

namespace Reading

/-- The lexemes that are left of a text, the one at hand included. -/
def remaining (s : Reading) : List Lexeme :=
  if s.token.kind = .done then [] else s.token.lexeme :: s.rest.map Token.lexeme

/-- The kinds of the lexemes that are left. -/
def kinds (s : Reading) : List TokenKind := s.remaining.map Lexeme.kind

/-- The text is not read to its end. -/
def Inside (s : Reading) : Prop := s.token.kind ≠ .done

end Reading

/-- Slots from a first one on are moved up. -/
def raise (base shift n : Nat) : Nat := if n < base then n else n + shift

theorem raise_of_lt {base shift n : Nat} (h : n < base) : raise base shift n = n := if_pos h

theorem raise_zero (base : Nat) : raise base 0 = id := by
  funext n
  rw [raise, Nat.add_zero, ite_self, id]

theorem raise_injective (base shift : Nat) : Function.Injective (raise base shift) := by
  intro m n h
  unfold raise at h
  split at h <;> split at h <;> omega

/-- How a text stands inside another one: the kinds of its lexemes, what comes after it and how it ends by itself,
the first slot that is its own and how far its slots are moved up, and what is known of the shapes made in both. -/
structure Graft where
  kinds : List TokenKind
  after : List Lexeme
  stop : Stop
  base : Nat
  shift : Nat
  alike : Shapes → Shapes → Prop
  closes : Closes after
  alike_use : ∀ {made made' : Shapes} (fields : Fields), alike made made' →
    alike (made.use fields) (made'.use fields)

namespace Graft

/-- Where a slot goes. -/
def rename (g : Graft) : Nat → Nat := raise g.base g.shift

/-- The scope of the text inside the other one. -/
def scope (g : Graft) (scope : Scope) : Scope := { scope with it := scope.it.map (mapSlots g.rename) }

/-- The names of a scope stand for expressions without slots of the text. -/
def Fixes (g : Graft) (scope : Scope) : Prop :=
  ∀ name e, scope.symbols.lookup name = some (.expr e) → e.mapSlots g.rename = e

/-- A reading of the text and one of the text that it stands in, at the same place of it. -/
structure Mirrors (g : Graft) (s t : Reading) : Prop where
  proper : ∀ u ∈ s.rest, u.kind ≠ .done
  stop : s.stop = g.stop
  ended : s.token.kind = .done → s.rest = [] ∧ ∃ pos, g.stop = .finished pos
  place : s.kinds <:+ g.kinds
  ahead : t.Ahead (s.remaining ++ g.after)
  base_le : g.base ≤ s.slots
  slots : t.slots = s.slots + g.shift
  shapes : g.alike s.shapes t.shapes

/-- If the text is at its end, what comes after it does not continue a phrase of a level. -/
def Settled (g : Graft) (k : Nat) (s : Reading) : Prop := s.token.kind = .done → Stops k g.after

/-- What one reader does in a state of the text, if it leaves a state as asked, another one does inside the
other text. -/
def Carries {α β : Type} (g : Graft) (P : Reading → Prop) (scope : Scope) (φ : α → β) (p : Parse α)
    (q : Parse β) (s t : Reading) : Prop :=
  ∀ a s', Reads p scope s a s' → P s' → ∃ t', Reads q (g.scope scope) t (φ a) t' ∧ g.Mirrors s' t'

variable {α β γ δ : Type} {g : Graft} {P Q : Reading → Prop} {scope : Scope} {s t : Reading}

theorem settled_of_inside (k : Nat) (h : s.Inside) : g.Settled k s := fun hdone => absurd hdone h

theorem Settled.mono {j k : Nat} (h : g.Settled j s) (hjk : j ≤ k) : g.Settled k s :=
  fun hdone => (h hdone).mono hjk

/-- What does not continue a phrase of a level does not continue a single operand. -/
theorem Settled.operand {k : Nat} (h : g.Settled k s) : g.Settled 6 s := fun hdone => (h hdone).tight

namespace Mirrors

theorem lexeme (h : g.Mirrors s t) (hs : s.Inside) : t.token.lexeme = s.token.lexeme := by
  have hshows := h.ahead.shows
  rw [Reading.remaining, if_neg hs] at hshows
  exact hshows

theorem kind (h : g.Mirrors s t) (hs : s.Inside) : t.token.kind = s.token.kind :=
  congrArg Lexeme.kind (h.lexeme hs)

theorem shows_of_done (h : g.Mirrors s t) (hs : s.token.kind = .done) : t.token.Shows g.after := by
  have hshows := h.ahead.shows
  rwa [Reading.remaining, if_pos hs, List.nil_append] at hshows

theorem of_done (h : g.Mirrors s t) (hs : s.token.kind = .done) :
    t.token.kind ∈ closing ∨ t.token.kind = .identifier := by
  rw [kind_of_shows (h.shows_of_done hs)]
  exact g.closes

/-- Both stand at a token of a kind that ends neither text. -/
theorem kind_iff (h : g.Mirrors s t) {k : TokenKind} (hk : k ∉ closing ∧ k ≠ .identifier) :
    t.token.kind = k ↔ s.token.kind = k := by
  by_cases hs : s.token.kind = .done
  · have hdone : TokenKind.done ∈ closing := by decide
    have hs' : s.token.kind ≠ k := fun hsk => hk.1 (by rwa [← hsk, hs])
    have ht : t.token.kind ≠ k := by
      rintro rfl
      exact (h.of_done hs).elim hk.1 hk.2
    exact iff_of_false ht hs'
  · rw [h.kind hs]

theorem left_eq_zero (h : g.Mirrors s t) (hs : s.token.kind = .done) : s.left = 0 := by
  rw [Reading.left, (h.ended hs).1, if_pos hs]
  rfl

end Mirrors

/-! ### Single steps -/

theorem Carries.mono {φ : α → β} {p : Parse α} {q : Parse β} (h : g.Carries Q scope φ p q s t)
    (hPQ : ∀ s, P s → Q s) : g.Carries P scope φ p q s t :=
  fun a s' ha hP => h a s' ha (hPQ s' hP)

theorem carries_pure (φ : α → β) (a : α) (h : g.Mirrors s t) :
    g.Carries P scope φ (pure a) (pure (φ a)) s t := by
  intro b s' hb _
  obtain ⟨rfl, rfl⟩ := reads_pure.mp hb
  exact ⟨t, reads_pure.mpr ⟨rfl, rfl⟩, h⟩

theorem carries_throw {φ : α → β} {e : CompileError} {q : Parse β} :
    g.Carries P scope φ (throw e) q s t := fun _ _ h _ => absurd h reads_throw

theorem carries_fail {φ : α → β} {fault : Fault} {q : Parse β} :
    g.Carries P scope φ (fail fault) q s t := fun _ _ h _ => absurd h reads_fail

/-- What is asked of the end of the second reader is enough for the end of the first one. -/
theorem Carries.before {φ : α → β} {ψ : γ → δ} {p : Parse α} {q : Parse β} {next : α → Parse γ}
    {next' : β → Parse δ} (h : g.Carries Q scope φ p q s t)
    (hbetween : ∀ a m c s', Reads (next a) scope m c s' → P s' → Q m)
    (hnext : ∀ a s' t', Reads p scope s a s' → Q s' → g.Mirrors s' t' →
      g.Carries P scope ψ (next a) (next' (φ a)) s' t') :
    g.Carries P scope ψ (p >>= next) (q >>= next') s t := by
  intro c s' hc hP
  obtain ⟨a, m, ha, hc⟩ := reads_bind.mp hc
  have hQ := hbetween a m c s' hc hP
  obtain ⟨m', ha', hm⟩ := h a m ha hQ
  obtain ⟨t', hc', ht⟩ := hnext a m m' ha hQ hm c s' hc hP
  exact ⟨t', reads_bind.mpr ⟨φ a, m', ha', hc'⟩, ht⟩

theorem Carries.bind {φ : α → β} {ψ : γ → δ} {p : Parse α} {q : Parse β} {next : α → Parse γ}
    {next' : β → Parse δ} (h : g.Carries (fun _ => True) scope φ p q s t)
    (hnext : ∀ a s' t', Reads p scope s a s' → g.Mirrors s' t' →
      g.Carries P scope ψ (next a) (next' (φ a)) s' t') :
    g.Carries P scope ψ (p >>= next) (q >>= next') s t :=
  h.before (fun _ _ _ _ _ _ => trivial) fun a s' t' ha _ hm => hnext a s' t' ha hm

theorem Carries.look {φ : α → β} {next : Token → Parse α} {next' : Token → Parse β}
    (h : g.Carries P scope φ (next s.token) (next' t.token) s t) :
    g.Carries P scope φ (token >>= next) (token >>= next') s t := by
  intro a s' ha hP
  obtain ⟨_, _, htoken, ha⟩ := reads_bind.mp ha
  obtain ⟨rfl, rfl⟩ := reads_token.mp htoken
  obtain ⟨t', ha', ht⟩ := h a s' ha hP
  exact ⟨t', reads_bind.mpr ⟨t.token, t, reads_token.mpr ⟨rfl, rfl⟩, ha'⟩, ht⟩

theorem Carries.see {φ : α → β} {next : Scope → Parse α} {next' : Scope → Parse β}
    (h : g.Carries P scope φ (next scope) (next' (g.scope scope)) s t) :
    g.Carries P scope φ (read >>= next) (read >>= next') s t := by
  intro a s' ha hP
  obtain ⟨_, _, hread, ha⟩ := reads_bind.mp ha
  obtain ⟨rfl, rfl⟩ := reads_read.mp hread
  obtain ⟨t', ha', ht⟩ := h a s' ha hP
  exact ⟨t', reads_bind.mpr ⟨g.scope scope, t, reads_read.mpr ⟨rfl, rfl⟩, ha'⟩, ht⟩

theorem Carries.within {φ : α → β} {f f' : Scope → Scope} {p : Parse α} {q : Parse β}
    (h : g.Carries P (f scope) φ p q s t) (hf : g.scope (f scope) = f' (g.scope scope)) :
    g.Carries P scope φ (withReader f p) (withReader f' q) s t := by
  intro a s' ha hP
  obtain ⟨t', ha', ht⟩ := h a s' (reads_withReader.mp ha) hP
  rw [hf] at ha'
  exact ⟨t', reads_withReader.mpr ha', ht⟩

theorem Carries.ifAt {φ : α → β} {k : TokenKind} {p q : Parse α} {p' q' : Parse β} (h : g.Mirrors s t)
    (hk : k ∉ closing ∧ k ≠ .identifier) (hyes : s.token.kind = k → g.Carries P scope φ p p' s t)
    (hno : g.Carries P scope φ q q' s t) :
    g.Carries P scope φ (at? k >>= fun found => if found then p else q)
      (at? k >>= fun found => if found then p' else q') s t := by
  intro a s' ha hP
  obtain ⟨found, _, hat, ha⟩ := reads_bind.mp ha
  obtain ⟨hfound, rfl⟩ := reads_at?.mp hat
  have hfound' : Reads (at? k) (g.scope scope) t found t := by
    refine reads_at?.mpr ⟨?_, rfl⟩
    rw [← hfound, Bool.eq_iff_iff, beq_iff_eq, beq_iff_eq]
    exact h.kind_iff hk
  cases found with
  | true =>
      obtain ⟨t', ha', ht⟩ := hyes (beq_iff_eq.mp hfound) a s' ha hP
      exact ⟨t', reads_bind.mpr ⟨true, t, hfound', ha'⟩, ht⟩
  | false =>
      obtain ⟨t', ha', ht⟩ := hno a s' ha hP
      exact ⟨t', reads_bind.mpr ⟨false, t, hfound', ha'⟩, ht⟩

/-- Both move past a token of the text. -/
theorem carries_advance (h : g.Mirrors s t) (hs : s.Inside) :
    g.Carries P scope id advance advance s t := by
  intro u s' hadvance _
  have hrest : t.rest.map Token.lexeme = s.rest.map Token.lexeme ++ g.after := by
    rw [h.ahead.rest, Reading.remaining, if_neg hs]
    rfl
  obtain ⟨t', ht', hahead, hmade⟩ := exists_advance (g.scope scope) hrest h.ahead.finished
  obtain ⟨hslots, hshapes⟩ := Prod.mk.inj hmade
  have hslots' : t'.slots = s.slots + g.shift := hslots.trans h.slots
  have hshapes' : g.alike s.shapes t'.shapes := by
    rw [hshapes]
    exact h.shapes
  have hplace : s.rest.map (·.kind) <:+ g.kinds := by
    have hplace := h.place
    rw [Reading.kinds, Reading.remaining, if_neg hs, List.map_cons, List.map_map] at hplace
    exact (List.suffix_cons _ _).trans hplace
  refine ⟨t', ht', ?_⟩
  rcases reads_advance_iff.mp hadvance with ⟨v, vs, hvs, rfl⟩ | ⟨pos, hnil, hstop, rfl⟩
  · have hproper := h.proper
    rw [hvs] at hproper hahead hplace
    obtain ⟨hv, hvs⟩ := List.forall_mem_cons.mp hproper
    refine ⟨hvs, h.stop, fun hdone => absurd hdone hv, ?_, ?_, h.base_le, hslots', hshapes'⟩
    · rw [Reading.kinds, Reading.remaining, if_neg hv, List.map_cons, List.map_map]
      exact hplace
    · rw [Reading.remaining, if_neg hv]
      exact hahead
  · rw [hnil] at hahead
    have hfinished : g.stop = .finished pos := h.stop.symm.trans hstop
    exact ⟨h.proper, h.stop, fun _ => ⟨hnil, pos, hfinished⟩, List.nil_suffix, hahead, h.base_le, hslots', hshapes'⟩

/-- Both move past the token at hand and go on. -/
theorem Carries.skip {φ : α → β} {p : Parse α} {q : Parse β} (h : g.Mirrors s t)
    (hs : s.Inside) (hnext : ∀ s' t', g.Mirrors s' t' → g.Carries P scope φ p q s' t') :
    g.Carries P scope φ (advance >>= fun _ => p) (advance >>= fun _ => q) s t :=
  (carries_advance h hs).bind fun _ s' t' _ hm => hnext s' t' hm

theorem carries_require {k : TokenKind} {fault : Fault} (h : g.Mirrors s t) (hk : k ≠ .done) :
    g.Carries P scope id (require k fault) (require k fault) s t := by
  intro u s' hu _
  obtain ⟨hkind, rfl⟩ := reads_require.mp hu
  have hs : s.Inside := by rwa [Reading.Inside, hkind]
  exact ⟨t, reads_require.mpr ⟨(h.kind hs).trans hkind, rfl⟩, h⟩

theorem Carries.expected {φ : α → β} {k : TokenKind} {fault : Fault} {p : Parse α} {q : Parse β}
    (h : g.Mirrors s t) (hk : k ≠ .done)
    (hnext : ∀ s' t', g.Mirrors s' t' → g.Carries P scope φ p q s' t') :
    g.Carries P scope φ (expect k fault >>= fun _ => p) (expect k fault >>= fun _ => q) s t := by
  have hexpect : g.Carries (fun _ => True) scope id (expect k fault) (expect k fault) s t := by
    refine (carries_require h hk).bind fun _ s' t' hrequire hm => ?_
    obtain ⟨hkind, rfl⟩ := reads_require.mp hrequire
    exact carries_advance hm (by rwa [Reading.Inside, hkind])
  exact hexpect.bind fun _ s' t' _ hm => hnext s' t' hm

/-- A phrase that a token of the text has to follow does not run to the end of the text. -/
theorem Carries.closed {φ : α → β} {ψ : γ → δ} {k : TokenKind} {fault : Fault} {p : Parse α} {q : Parse β}
    {next : α → Parse γ} {next' : β → Parse δ} (h : g.Carries Reading.Inside scope φ p q s t)
    (hk : k ≠ .done)
    (hnext : ∀ a s' t', g.Mirrors s' t' → g.Carries P scope ψ (next a) (next' (φ a)) s' t') :
    g.Carries P scope ψ (p >>= fun a => expect k fault >>= fun _ => next a)
      (q >>= fun a => expect k fault >>= fun _ => next' a) s t := by
  refine h.before ?_ fun a m m' _ _ hm => Carries.expected hm hk (hnext a)
  intro a m c s' hc _ hdone
  obtain ⟨_, _, hexpect, _⟩ := reads_bind.mp hc
  exact hk ((reads_expect.mp hexpect).1.symm.trans hdone)

/-- Both replace the token at hand by another one of its kind. -/
theorem Carries.retoken {φ : α → β} {u v : Token} {p : Parse α} {q : Parse β} (h : g.Mirrors s t)
    (hs : s.Inside) (hkind : u.kind = s.token.kind) (hlexeme : v.lexeme = u.lexeme)
    (hnext : ∀ s' t', g.Mirrors s' t' → g.Carries P scope φ p q s' t') :
    g.Carries P scope φ (modify (fun s => { s with token := u }) >>= fun _ => p)
      (modify (fun s => { s with token := v }) >>= fun _ => q) s t := by
  intro a s' ha hP
  obtain ⟨_, _, hmodify, ha⟩ := reads_bind.mp ha
  obtain rfl := reads_modify.mp hmodify
  have hu : u.kind ≠ .done := by rwa [hkind]
  have hrest := h.ahead.rest
  rw [Reading.remaining, if_neg hs] at hrest
  have hplace : Reading.kinds { s with token := u } <:+ g.kinds := by
    have hplace := h.place
    rw [Reading.kinds, Reading.remaining, if_neg hs, List.map_cons] at hplace
    rw [Reading.kinds, Reading.remaining, if_neg hu, List.map_cons]
    simpa only [Token.lexeme, hkind] using hplace
  have hahead : Reading.Ahead { t with token := v }
      (Reading.remaining { s with token := u } ++ g.after) := by
    rw [Reading.remaining, if_neg hu]
    exact ⟨hlexeme, hrest, h.ahead.finished⟩
  have hmirrors : g.Mirrors { s with token := u } { t with token := v } :=
    ⟨h.proper, h.stop, fun hdone => absurd hdone hu, hplace, hahead, h.base_le, h.slots, h.shapes⟩
  obtain ⟨t', ha', ht⟩ := hnext _ _ hmirrors a s' ha hP
  exact ⟨t', reads_bind.mpr ⟨(), _, reads_modify.mpr rfl, ha'⟩, ht⟩

theorem carries_typed {φ : Expr → Expr} {pos pos' : Nat} {rule rule' : Catalog → Except Fault Expr}
    (h : g.Mirrors s t) (hrule : rule' scope.catalog = (rule scope.catalog).map φ) :
    g.Carries P scope φ (typed pos rule) (typed pos' rule') s t := by
  intro e s' htyped _
  obtain ⟨he, rfl⟩ := reads_typed.mp htyped
  refine ⟨t, reads_typed.mpr ⟨?_, rfl⟩, h⟩
  have hcatalog : (g.scope scope).catalog = scope.catalog := rfl
  rw [hcatalog, hrule, he]
  rfl

/-- A slot that is given out is moved up. -/
theorem carries_newSlot (h : g.Mirrors s t) : g.Carries P scope g.rename newSlot newSlot s t := by
  intro n s' hn _
  obtain ⟨rfl, rfl⟩ := reads_newSlot.mp hn
  have hslot : t.slots = g.rename s.slots := by
    rw [rename, raise, if_neg (Nat.not_lt.mpr h.base_le)]
    exact h.slots
  refine ⟨_, reads_newSlot.mpr ⟨hslot, rfl⟩, h.proper, h.stop, h.ended, h.place, ?_, ?_, ?_, h.shapes⟩
  · exact ⟨h.ahead.shows, h.ahead.rest, h.ahead.finished⟩
  · exact Nat.le_succ_of_le h.base_le
  · have hslots := h.slots
    show t.slots + 1 = s.slots + 1 + g.shift
    omega

/-! ### Repetition -/

theorem carries_repeatStep {φ : α → β} {step : α → Parse (Option α)} {step' : β → Parse (Option β)}
    (hleft : ∀ x s y m, Reads (step x) scope s (some y) m → m.left < s.left)
    (hleft' : ∀ x s y m, Reads (step' x) (g.scope scope) s (some y) m → m.left < s.left)
    (hbetween : ∀ {x m z s'}, Iterates step scope x m z s' → P s' → P m)
    (hstep : ∀ x s t, g.Mirrors s t → g.Carries P scope (Option.map φ) (step x) (step' (φ x)) s t) (x : α)
    (h : g.Mirrors s t) : g.Carries P scope φ (repeatStep step x) (repeatStep step' (φ x)) s t := by
  intro z s' hz hP
  have hsteps : ∃ t', Iterates step' (g.scope scope) (φ x) t (φ z) t' ∧ g.Mirrors s' t' := by
    replace hz := (reads_repeatStep hleft).mp hz
    induction hz generalizing t with
    | stop hnone =>
        obtain ⟨t', hnone', ht⟩ := hstep _ _ _ h _ _ hnone hP
        exact ⟨t', .stop hnone', ht⟩
    | next hsome later ih =>
        obtain ⟨m', hsome', hm⟩ := hstep _ _ _ h _ _ hsome (hbetween later hP)
        obtain ⟨t', hlater, ht⟩ := ih hm hP
        exact ⟨t', .next hsome' hlater, ht⟩
  obtain ⟨t', hz', ht⟩ := hsteps
  exact ⟨t', (reads_repeatStep hleft').mpr hz', ht⟩

/-- No item is read where the text is at its end. -/
theorem inside_of_items {item : List α → Parse α} {x z : List α} {m s' : Reading}
    (h : Iterates (nextItem item) scope x m z s') (hs' : s'.Inside) : m.Inside := by
  cases h with
  | stop hnone =>
      rcases reads_nextItem.mp hnone with ⟨_, _, _, _, _, hsome⟩ | ⟨_, _, rfl⟩
      · cases hsome
      · exact hs'
  | next hsome _ =>
      rcases reads_nextItem.mp hsome with ⟨hcomma, _⟩ | ⟨_, hnone, _⟩
      · simp [Reading.Inside, hcomma]
      · cases hnone

theorem carries_separated {φ : α → β} {item : List α → Parse α} {item' : List β → Parse β}
    (hleft : ∀ {done s a s'}, Reads (item done) scope s a s' → s'.left < s.left)
    (hleft' : ∀ {done s a s'}, Reads (item' done) (g.scope scope) s a s' → s'.left < s.left)
    (hitem : ∀ done s t, g.Mirrors s t →
      g.Carries Reading.Inside scope φ (item done) (item' (done.map φ)) s t)
    (h : g.Mirrors s t) :
    g.Carries Reading.Inside scope (List.map φ) (separated item) (separated item') s t := by
  have hnext : ∀ done s t, g.Mirrors s t → g.Carries Reading.Inside scope (Option.map (List.map φ))
      (nextItem item done) (nextItem item' (done.map φ)) s t := by
    intro done s t h next s' hnext hs'
    rcases reads_nextItem.mp hnext with ⟨hcomma, m, a, hm, ha, rfl⟩ | ⟨hcomma, rfl, rfl⟩
    · have hs : s.Inside := by simp [Reading.Inside, hcomma]
      obtain ⟨m', hm', hmirrors⟩ := carries_advance (P := fun _ => True) h hs _ _ hm trivial
      obtain ⟨t', ha', ht⟩ := hitem done m m' hmirrors a s' ha hs'
      refine ⟨t', reads_nextItem.mpr (Or.inl ⟨?_, m', φ a, hm', ha', ?_⟩), ht⟩
      · rw [h.kind hs, hcomma]
      · rw [Option.map_some, List.map_append]
        rfl
    · refine ⟨t, reads_nextItem.mpr (Or.inr ⟨?_, rfl, rfl⟩), h⟩
      rwa [h.kind hs']
  refine (hitem [] s t h).before ?_ fun first m m' _ _ hm => ?_
  · intro first m items s' hitems
    exact inside_of_items ((reads_repeatStep (nextItem_left hleft)).mp hitems)
  · exact carries_repeatStep (nextItem_left hleft) (nextItem_left hleft') inside_of_items hnext [first] hm

/-- A reader of expressions and one that does the same inside the other text, if what comes after it does
not continue a phrase of a level. -/
def Agrees (g : Graft) (k : Nat) (p q : Parse Expr) : Prop :=
  ∀ {scope : Scope} {s t : Reading}, g.Fixes scope → g.Mirrors s t →
    g.Carries (g.Settled k) scope (mapSlots g.rename) p q s t

/-- Levels of nesting whose readers agree. -/
structure Levels (g : Graft) (inner inner' : Level) : Prop where
  expression : g.Agrees 0 inner.expression inner'.expression
  operand : g.Agrees 6 inner.operand inner'.operand
  derived : inner.Derived
  derived' : inner'.Derived

variable {inner inner' : Level}

/-! ### Words -/

theorem carries_identifier (h : g.Mirrors s t) : g.Carries P scope id identifier identifier s t := by
  refine (carries_require h (by decide)).bind fun _ m m' hrequire hm => ?_
  obtain ⟨hkind, rfl⟩ := reads_require.mp hrequire
  have htext : m'.token.text = s.token.text :=
    congrArg Lexeme.text (hm.lexeme (by simp [Reading.Inside, hkind]))
  refine Carries.look ?_
  simp only [htext]
  split <;> exact carries_pure id _ hm

/-- A field may get its name from what comes after the text, but not inside it. -/
theorem carries_fieldName (pos pos' : Nat) (e : Expr) (h : g.Mirrors s t) (hs : s.Inside) :
    g.Carries P scope id (fieldName pos e) (fieldName pos' (e.mapSlots g.rename)) s t := by
  refine Carries.look ?_
  rw [Token.isWord_congr (h.lexeme hs)]
  split
  · refine Carries.skip h hs fun m m' hm => (carries_identifier hm).bind fun name n n' hname hn => ?_
    obtain ⟨hkind, rfl⟩ := identifier_reads hname
    exact Carries.skip hn (by simp [Reading.Inside, hkind]) fun o o' ho => carries_pure id name ho
  · cases e with
    | property ty p target => exact carries_pure id p.name h
    | _ => exact carries_throw

/-- A name is read where the text is at its end only if there is none to read. -/
theorem inside_of_fieldName {pos : Nat} {e : Expr} {name : String} {m s' : Reading}
    (h : Reads (fieldName pos e) scope m name s') (hs' : s'.Inside) : m.Inside := by
  intro hdone
  obtain ⟨_, _, htoken, h⟩ := reads_bind.mp h
  obtain ⟨rfl, rfl⟩ := reads_token.mp htoken
  rw [if_neg (by simp [Token.isWord, hdone])] at h
  cases e with
  | property ty p target =>
      obtain ⟨-, rfl⟩ := reads_pure.mp h
      exact hs' hdone
  | _ => exact absurd h reads_throw

theorem carries_typeForm (pos pos' : Nat) (ty : Ty) (h : g.Mirrors s t) :
    g.Carries P scope id (typeForm pos ty) (typeForm pos' ty) s t := by
  refine Carries.ifAt h (by decide) (fun hkind => ?_) (carries_pure id ty h)
  split
  · exact Carries.skip h (by simp [Reading.Inside, hkind]) fun m m' hm => carries_pure id _ hm
  · exact carries_throw

/-- An expression that takes up the token at hand. -/
theorem carries_leaf {e e' : Expr} (he : e.mapSlots g.rename = e') (h : g.Mirrors s t)
    (hs : s.Inside) :
    g.Carries P scope (mapSlots g.rename) (do advance; return e) (do advance; return e') s t := by
  subst he
  exact Carries.skip h hs fun m m' hm => carries_pure (mapSlots g.rename) e hm

theorem carries_literal {reading : Option Expr} {fault fault' : Fault}
    (hliteral : ∀ e, reading = some e → ∃ t v source, e = .literal t v source) (h : g.Mirrors s t)
    (hs : s.Inside) :
    g.Carries P scope (mapSlots g.rename) (literal reading fault) (literal reading fault') s t := by
  cases reading with
  | none => exact carries_fail
  | some e =>
      obtain ⟨ty, v, source, rfl⟩ := hliteral e rfl
      exact carries_leaf rfl h hs

theorem carries_implicit (h : g.Mirrors s t) (hs : s.Inside) :
    g.Carries P scope (mapSlots g.rename) implicit implicit s t := by
  refine Carries.see ?_
  simp only [Graft.scope]
  cases scope.it with
  | none => exact carries_fail
  | some it => exact carries_leaf rfl h hs

/-- Where another member is read there is a dot or a bracket. -/
theorem inside_of_member {e next : Expr} {s' : Reading} (h : Reads (nextMember inner e) scope s (some next) s') :
    s.Inside := by
  intro hdone
  obtain ⟨_, _, htoken, h⟩ := reads_bind.mp h
  obtain ⟨rfl, rfl⟩ := reads_token.mp htoken
  simp only [hdone] at h
  cases (reads_pure.mp h).1

/-- No member is read where the text is at its end. -/
theorem settled_of_members {x z : Expr} {m s' : Reading} (h : Iterates (nextMember inner) scope x m z s')
    (hs' : g.Settled 6 s') : g.Settled 6 m := by
  cases h with
  | stop hnone =>
      obtain ⟨-, rfl⟩ := reads_nextMember_none.mp hnone
      exact hs'
  | next hsome _ => exact settled_of_inside 6 (inside_of_member hsome)

/-- Whether a token is a sign depends on its lexeme alone. -/
theorem unaryOperator?_congr {u v : Token} (h : v.lexeme = u.lexeme) : unaryOperator? v = unaryOperator? u := by
  obtain ⟨kind, text, pos⟩ := u
  cases h
  rfl

/-! ### Arguments -/

section

variable (hinner : g.Levels inner inner') (hscope : g.Fixes scope)

include hinner hscope

theorem carries_inner (h : g.Mirrors s t) :
    g.Carries Reading.Inside scope (mapSlots g.rename) inner.expression inner'.expression s t :=
  (hinner.expression hscope h).mono fun _ => settled_of_inside 0

theorem carries_arguments (h : g.Mirrors s t) :
    g.Carries Reading.Inside scope (List.map (mapSlots g.rename)) (arguments inner) (arguments inner') s t :=
  carries_separated (fun h => (hinner.derived.expression h).2) (fun h => (hinner.derived'.expression h).2)
    (fun _ _ _ h => carries_inner hinner hscope h) h

theorem carries_argumentList (h : g.Mirrors s t) :
    g.Carries P scope (List.map (mapSlots g.rename)) (argumentList inner) (argumentList inner') s t := by
  refine Carries.expected h (by decide) fun m m' hm => ?_
  intro args s' hargs hP
  obtain ⟨found, _, hat, hargs⟩ := reads_bind.mp hargs
  obtain ⟨hfound, rfl⟩ := reads_at?.mp hat
  have hclose : ∀ {p q : Parse (List Expr)},
      g.Carries Reading.Inside scope (List.map (mapSlots g.rename)) p q m m' →
      g.Carries P scope (List.map (mapSlots g.rename))
        (do let args ← p; expect .closeParen .closeParenOrCommaExpected; return args)
        (do let args ← q; expect .closeParen .closeParenOrCommaExpected; return args) m m' :=
    fun hp => hp.closed (by decide) fun args _ _ hm => carries_pure _ args hm
  cases found with
  | true =>
      have hkind : m.token.kind = .closeParen := beq_iff_eq.mp hfound
      have hfound' : (m'.token.kind == .closeParen) = true := by
        rw [hm.kind (by simp [Reading.Inside, hkind]), hfound]
      obtain ⟨t', hargs', ht⟩ := hclose (carries_pure _ [] hm) args s' hargs hP
      exact ⟨t', reads_bind.mpr ⟨true, m', reads_at?.mpr ⟨hfound', rfl⟩, hargs'⟩, ht⟩
  | false =>
      -- at the end of the text there is no argument to read, so the second one is not at its end either
      have hkind : m.Inside := by
        intro hdone
        obtain ⟨_, _, hread, _⟩ := reads_bind.mp hargs
        have hlt := (arguments_reads hinner.derived hread).2
        rw [hm.left_eq_zero hdone] at hlt
        exact Nat.not_lt_zero _ hlt
      have hfound' : (m'.token.kind == .closeParen) = false := by
        rw [hm.kind hkind, hfound]
      obtain ⟨t', hargs', ht⟩ := hclose (carries_arguments hinner hscope hm) args s' hargs hP
      exact ⟨t', reads_bind.mpr ⟨false, m', reads_at?.mpr ⟨hfound', rfl⟩, hargs'⟩, ht⟩

/-! ### Phrases -/

theorem carries_member (receiver : Typing.Receiver) (h : g.Mirrors s t) :
    g.Carries P scope (mapSlots g.rename) (member inner receiver)
      (member inner' (receiver.substitute (.rename g.rename))) s t := by
  refine Carries.look ((carries_identifier h).bind fun name m m' hname hm => ?_)
  obtain ⟨hkind, rfl⟩ := identifier_reads hname
  refine Carries.skip hm (by simp [Reading.Inside, hkind]) fun n n' hn =>
    Carries.ifAt hn (by decide) (fun _ => ?_) ?_
  · refine Carries.see ?_
    have hcatalog : (g.scope scope).catalog = scope.catalog := rfl
    simp only [hcatalog, id, Typing.Receiver.aggregated?_substitute, Typing.Receiver.expr?_substitute]
    rcases receiver.aggregated? scope.catalog name with _ | item
    · refine (carries_argumentList hinner hscope hn).bind fun args o o' _ ho => ?_
      exact carries_typed ho (Typing.methodCall_substitute receiver name args)
    · rcases receiver.expr? with _ | source
      · refine (carries_argumentList hinner hscope hn).bind fun args o o' _ ho => ?_
        exact carries_typed ho (Typing.methodCall_substitute receiver name args)
      · refine (carries_newSlot hn).bind fun slot o o' _ ho => ?_
        have hitem : g.Fixes { scope with it := some (.param item slot) } := hscope
        have hargs : g.Carries (fun _ => True) scope (List.map (mapSlots g.rename))
            (withReader ({ · with it := some (.param item slot) }) (argumentList inner))
            (withReader ({ · with it := some (.param item (g.rename slot)) }) (argumentList inner')) o o' :=
          Carries.within (carries_argumentList hinner hitem ho) rfl
        refine hargs.bind fun args o₁ o₁' _ ho₁ => ?_
        exact carries_typed ho₁ (Typing.aggregate_substitute source slot name args)
  · exact carries_typed hn (Typing.property_substitute receiver name)

theorem carries_element (e : Expr) (h : g.Mirrors s t) (hs : s.Inside) :
    g.Carries P scope (mapSlots g.rename) (element inner e) (element inner' (e.mapSlots g.rename)) s t := by
  refine Carries.look (Carries.skip h hs fun m m' hm => ?_)
  exact (carries_arguments hinner hscope hm).closed (by decide) fun args o o' ho =>
    carries_typed ho (Typing.element_substitute e args)

theorem carries_field (before : List (String × Expr)) (h : g.Mirrors s t) :
    g.Carries Reading.Inside scope (Prod.map id (mapSlots g.rename)) (field inner before)
      (field inner' (before.map (Prod.map id (mapSlots g.rename)))) s t := by
  refine Carries.look ((carries_inner hinner hscope h).before ?_ fun e m m' _ hinside hm => ?_)
  · intro e m named s' hnamed hs'
    obtain ⟨name, n, hname, hnamed⟩ := reads_bind.mp hnamed
    refine inside_of_fieldName hname ?_
    rcases reads_ite.mp hnamed with ⟨_, hthrow⟩ | ⟨_, hpure⟩
    · obtain ⟨_, _, hthrow, _⟩ := reads_bind.mp hthrow
      exact absurd hthrow reads_throw
    · obtain ⟨-, rfl⟩ := reads_pure.mp hpure
      exact hs'
  · refine (carries_fieldName _ _ e hm hinside).bind fun name n n' _ hn => ?_
    have hany : (before.map (Prod.map id (mapSlots g.rename))).any (·.1 == name) =
        before.any (·.1 == name) := by
      rw [List.any_map]
      rfl
    simp only [id, hany]
    split
    · exact Carries.bind (φ := id) carries_throw fun _ _ _ hthrow _ => absurd hthrow reads_throw
    · exact carries_pure (Prod.map id (mapSlots g.rename)) (name, e) hn

theorem carries_fields (h : g.Mirrors s t) :
    g.Carries Reading.Inside scope (List.map (Prod.map id (mapSlots g.rename))) (separated (field inner))
      (separated (field inner')) s t :=
  carries_separated (fun h => (field_reads hinner.derived h).2) (fun h => (field_reads hinner.derived' h).2)
    (fun done _ _ h => carries_field hinner hscope done h) h

theorem carries_projection (h : g.Mirrors s t) (hs : s.Inside) :
    g.Carries P scope (mapSlots g.rename) (projection inner) (projection inner') s t := by
  refine Carries.skip h hs fun m m' hm => Carries.expected hm (by decide) fun n n' hn => ?_
  refine (carries_fields hinner hscope hn).closed (by decide) fun fields p p' hp => ?_
  intro e s' he _
  simp only [reads_bind, reads_modify, reads_pure] at he
  obtain ⟨_, _, rfl, rfl, rfl⟩ := he
  simp only [reads_bind, reads_modify, reads_pure, List.map_map, Function.comp_def, Prod.map_fst, Prod.map_snd,
    id_eq, Expr.ty_substitute]
  refine ⟨_, ⟨(), _, rfl, Typing.projection_substitute fields, rfl⟩, hp.proper, hp.stop, hp.ended, hp.place, ?_,
    hp.base_le, hp.slots, g.alike_use _ hp.shapes⟩
  exact ⟨hp.ahead.shows, hp.ahead.rest, hp.ahead.finished⟩

theorem carries_conditionalCall (h : g.Mirrors s t) (hs : s.Inside) :
    g.Carries P scope (mapSlots g.rename) (conditionalCall inner) (conditionalCall inner') s t := by
  refine Carries.look (Carries.skip h hs fun m m' hm => ?_)
  refine (carries_argumentList hinner hscope hm).bind fun args n n' _ hn => ?_
  rcases args with _ | ⟨test, _ | ⟨yes, _ | ⟨no, _ | ⟨more, rest⟩⟩⟩⟩
  case cons.cons.cons.nil => exact carries_typed hn (Typing.conditional_substitute test yes no)
  all_goals exact carries_throw

theorem carries_typeAccess (ty : Ty) (h : g.Mirrors s t) (hs : s.Inside) :
    g.Carries P scope (mapSlots g.rename) (typeAccess inner ty) (typeAccess inner' ty) s t := by
  refine Carries.look (Carries.skip h hs fun m m' hm => ?_)
  refine (carries_typeForm _ _ ty hm).bind fun form n n' _ hn => ?_
  refine Carries.ifAt hn (by decide) (fun _ => ?_) ?_
  · refine (carries_argumentList hinner hscope hn).bind fun args o o' _ ho => ?_
    exact carries_typed ho (Typing.construction_substitute form args)
  · exact Carries.expected hn (by decide) fun o o' ho => carries_member hinner hscope (.type form) ho

theorem carries_named (text : String) (h : g.Mirrors s t) (hs : s.Inside) :
    g.Carries P scope (mapSlots g.rename) (named inner text) (named inner' text) s t := by
  refine Carries.see ?_
  simp only [Graft.scope]
  split
  · rename_i ty _
    exact carries_typeAccess hinner hscope ty h hs
  · rcases hsymbol : scope.symbols.lookup (Text.fold text) with _ | (e | l)
    · rcases scope.it with _ | it
      · exact carries_fail
      · exact carries_member hinner hscope (.value it) h
    · exact carries_leaf (hscope _ e hsymbol) h hs
    · refine Carries.look (Carries.skip h hs fun m m' hm => ?_)
      refine (carries_argumentList hinner hscope hm).bind fun args n n' _ hn => ?_
      exact carries_typed hn (Typing.invocation_substitute l args)

theorem carries_word (text : String) (h : g.Mirrors s t) (hs : s.Inside) :
    g.Carries P scope (mapSlots g.rename) (word inner text) (word inner' text) s t := by
  unfold word
  split
  · exact carries_leaf rfl h hs
  · exact carries_leaf rfl h hs
  · exact carries_leaf rfl h hs
  · exact carries_implicit h hs
  · exact carries_conditionalCall hinner hscope h hs
  · exact carries_projection hinner hscope h hs
  · exact carries_named hinner hscope text h hs

theorem carries_primaryStart (h : g.Mirrors s t) :
    g.Carries P scope (mapSlots g.rename) (primaryStart inner) (primaryStart inner') s t := by
  refine Carries.look ?_
  by_cases hs : s.token.kind = .done
  · simp only [hs]
    exact carries_fail
  · have htext : t.token.text = s.token.text := congrArg Lexeme.text (h.lexeme hs)
    simp only [h.kind hs, htext]
    split
    · exact carries_word hinner hscope _ h hs
    · exact carries_literal (fun _ => exists_literal_of_quoted) h hs
    · exact carries_literal (fun _ => exists_literal_of_integer) h hs
    · exact carries_literal (fun _ => exists_literal_of_real) h hs
    · refine Carries.skip h hs fun m m' hm => ?_
      exact (carries_inner hinner hscope hm).closed (by decide) fun e o o' ho =>
        carries_pure (mapSlots g.rename) e ho
    · exact carries_fail

theorem carries_nextMember_inside (e : Expr) (h : g.Mirrors s t) (hs : s.Inside) :
    g.Carries P scope (Option.map (mapSlots g.rename)) (nextMember inner e)
      (nextMember inner' (e.mapSlots g.rename)) s t := by
  refine Carries.look ?_
  rw [h.kind hs]
  split
  · refine Carries.skip h hs fun m m' hm => ?_
    refine (carries_member hinner hscope (.value e) hm).bind fun next n n' _ hn => ?_
    exact carries_pure (Option.map (mapSlots g.rename)) (some next) hn
  · refine (carries_element hinner hscope e h hs).bind fun next n n' _ hn => ?_
    exact carries_pure (Option.map (mapSlots g.rename)) (some next) hn
  · exact carries_pure (Option.map (mapSlots g.rename)) none h

theorem carries_nextMember (e : Expr) (h : g.Mirrors s t) :
    g.Carries (g.Settled 6) scope (Option.map (mapSlots g.rename)) (nextMember inner e)
      (nextMember inner' (e.mapSlots g.rename)) s t := by
  by_cases hs : s.Inside
  · exact carries_nextMember_inside hinner hscope e h hs
  · intro next s' hnext hsettled
    cases next with
    | some e' => exact absurd (inside_of_member hnext) hs
    | none =>
        obtain ⟨-, rfl⟩ := reads_nextMember_none.mp hnext
        have hmember := (hsettled (not_not.mp hs)).member
        rw [← kind_of_shows (h.shows_of_done (not_not.mp hs))] at hmember
        exact ⟨t, reads_nextMember_none.mpr ⟨hmember, rfl⟩, h⟩

theorem carries_primary (h : g.Mirrors s t) :
    g.Carries (g.Settled 6) scope (mapSlots g.rename) (primary inner) (primary inner') s t := by
  refine (carries_primaryStart hinner hscope h).bind fun e m m' _ hm => ?_
  exact carries_repeatStep (nextMember_left hinner.derived) (nextMember_left hinner.derived')
    settled_of_members (fun e s t h => carries_nextMember hinner hscope e h) e hm

/-! ### Operators -/

theorem carries_unary (h : g.Mirrors s t) :
    g.Carries (g.Settled 6) scope (mapSlots g.rename) (unary inner) (unary inner') s t := by
  by_cases hs : s.Inside
  case neg =>
    -- a sign may come after the text, but at the end of it no operand is read
    intro e s' hread _
    have hleft := (unary_derived hinner.derived hread).2
    rw [h.left_eq_zero (not_not.mp hs)] at hleft
    exact absurd hleft (Nat.not_lt_zero _)
  refine Carries.look ?_
  rw [unaryOperator?_congr (h.lexeme hs)]
  cases hop : Grammar.unaryOperator? s.token with
  | none => exact carries_primary hinner hscope h
  | some op =>
      have htext : t.token.text = s.token.text := congrArg Lexeme.text (h.lexeme hs)
      rw [htext]
      refine Carries.skip h hs fun m m' hm => Carries.look ?_
      simp only [
        hm.kind_iff (show TokenKind.integerLiteral ∉ closing ∧ TokenKind.integerLiteral ≠ .identifier by decide),
        hm.kind_iff (show TokenKind.realLiteral ∉ closing ∧ TokenKind.realLiteral ≠ .identifier by decide)]
      split
      · rename_i hliteral
        have hkind : m.Inside := by
          intro hdone
          simp [hdone] at hliteral
        refine Carries.retoken hm hkind rfl ?_ fun n n' hn => carries_primary hinner hscope hn
        have hlexeme := hm.lexeme hkind
        simp only [Token.lexeme, Lexeme.mk.injEq] at hlexeme ⊢
        rw [hlexeme.1, hlexeme.2]
        exact ⟨rfl, rfl⟩
      · refine (hinner.operand hscope hm).before ?_ fun e n n' _ _ hn =>
          carries_typed hn (Typing.unary_substitute op s.token.text e)
        intro e n _ s' htyped hs'
        obtain ⟨-, rfl⟩ := reads_typed.mp htyped
        exact hs'

end

theorem unary_agrees (hinner : g.Levels inner inner') (k : Nat) : g.Agrees k (unary inner) (unary inner') :=
  fun hscope h => (carries_unary hinner hscope h).mono fun _ => Settled.operand

/-- Whether a token is an operator of a level depends on its lexeme alone. -/
theorem operators_congr {u v : Token} (h : v.lexeme = u.lexeme) (k : Nat) : operators k v = operators k u := by
  obtain ⟨kind, text, pos⟩ := u
  cases h
  unfold operators
  split <;> rfl

/-- An operator of a level is one in both texts, if what comes after the first one is none. -/
theorem Mirrors.operators {k : Nat} (h : g.Mirrors s t) (hsettled : g.Settled k s) :
    operators k t.token = operators k s.token := by
  by_cases hs : s.token.kind = .done
  · rw [(hsettled hs).operator k (Nat.le_refl k) _ (h.shows_of_done hs), operators_eq_none k (by simp [hs])]
  · exact operators_congr (h.lexeme hs) k

theorem carries_combine {k : Nat} {u v : Token} {combine : Token → Expr → Expr → Parse Expr}
    (hop : operators k u = some combine) (htext : v.text = u.text) (left right : Expr) (h : g.Mirrors s t) :
    g.Carries P scope (mapSlots g.rename) (combine u left right)
      (combine v (left.mapSlots g.rename) (right.mapSlots g.rename)) s t := by
  have hjoining : ∀ {rule : Catalog → String → Expr → Expr → Except Fault Expr},
      (∀ cat symbol, rule cat symbol (left.mapSlots g.rename) (right.mapSlots g.rename) =
        (rule cat symbol left right).map (mapSlots g.rename)) →
      g.Carries P scope (mapSlots g.rename) (joining rule u left right)
        (joining rule v (left.mapSlots g.rename) (right.mapSlots g.rename)) s t := by
    intro rule hrule
    refine carries_typed h ?_
    rw [htext]
    exact hrule scope.catalog u.text
  unfold Grammar.operators at hop
  split at hop
  · split at hop <;> cases hop
    exact hjoining fun _ symbol => Typing.logical_substitute _ symbol left right
  · split at hop <;> cases hop
    exact hjoining fun _ symbol => Typing.logical_substitute _ symbol left right
  · obtain ⟨op, -, rfl⟩ := Option.map_eq_some_iff.mp hop
    exact hjoining fun _ symbol => Typing.comparison_substitute op symbol left right
  · split at hop <;> cases hop
    · exact hjoining fun _ symbol => Typing.sum_substitute symbol left right
    · exact hjoining fun _ symbol => Typing.arithmetic_substitute _ _ symbol left right
    · exact carries_pure (mapSlots g.rename) (Typing.concatenation left right) h
  · obtain ⟨op, -, rfl⟩ := Option.map_eq_some_iff.mp hop
    exact hjoining fun _ symbol => Typing.arithmetic_substitute _ op symbol left right
  · cases hop

/-- Where another operand is read there is an operator. -/
theorem inside_of_operand {k : Nat} {operand : Parse Expr} {left e : Expr} {s s' : Reading}
    (h : Reads (nextOperand operand (operators k) left) scope s (some e) s') : s.Inside := by
  intro hdone
  rcases reads_nextOperand.mp h with ⟨_, _, _, _, _, hop, _⟩ | ⟨_, hnone, _⟩
  · rw [operators_eq_none k (by simp [hdone])] at hop
    cases hop
  · cases hnone

/-- Another operand is read in both texts, if what comes after the first one does not continue the operand. -/
theorem exists_operand {k : Nat} {operand operand' : Parse Expr} (hoperand : g.Agrees (k + 1) operand operand')
    (hscope : g.Fixes scope) {left e : Expr} {s' : Reading} (h : g.Mirrors s t)
    (hnext : Reads (nextOperand operand (operators k) left) scope s (some e) s') (hsettled : g.Settled (k + 1) s') :
    ∃ t', Reads (nextOperand operand' (operators k) (left.mapSlots g.rename)) (g.scope scope) t
      (some (e.mapSlots g.rename)) t' ∧ g.Mirrors s' t' := by
  have hs : s.Inside := inside_of_operand hnext
  rcases reads_nextOperand.mp hnext with ⟨combine, m, right, n, e', hop, hm, hright, he, heq⟩ | ⟨-, hnone, -⟩
  · cases heq
    have htext : t.token.text = s.token.text := congrArg Lexeme.text (h.lexeme hs)
    have hop' : operators k t.token = some combine := (operators_congr (h.lexeme hs) k).trans hop
    obtain rfl := operators_reads hop he
    obtain ⟨m', hm', hmirrors⟩ := carries_advance (P := fun _ => True) h hs _ _ hm trivial
    obtain ⟨n', hright', hmirrors⟩ := hoperand hscope hmirrors right s' hright hsettled
    obtain ⟨t', he', ht⟩ :=
      carries_combine (P := fun _ => True) hop htext left right hmirrors e s' he trivial
    exact ⟨t', reads_nextOperand.mpr (Or.inl ⟨combine, m', _, n', _, hop', hm', hright', he', rfl⟩), ht⟩
  · cases hnone

theorem carries_nextOperand {k : Nat} {operand operand' : Parse Expr}
    (hoperand : g.Agrees (k + 1) operand operand') (hscope : g.Fixes scope) (left : Expr)
    (h : g.Mirrors s t) :
    g.Carries (g.Settled k) scope (Option.map (mapSlots g.rename)) (nextOperand operand (operators k) left)
      (nextOperand operand' (operators k) (left.mapSlots g.rename)) s t := by
  intro next s' hnext hsettled
  cases next with
  | some e => exact exists_operand hoperand hscope h hnext (hsettled.mono (by omega))
  | none =>
      rcases reads_nextOperand.mp hnext with ⟨_, _, _, _, _, _, _, _, _, hsome⟩ | ⟨hop, -, rfl⟩
      · cases hsome
      · refine ⟨t, reads_nextOperand.mpr (Or.inr ⟨?_, rfl, rfl⟩), h⟩
        rw [h.operators hsettled, hop]

/-- No operand is read where the text is at its end. -/
theorem settled_of_operands {k : Nat} {operand : Parse Expr} {x z : Expr} {m s' : Reading}
    (h : Iterates (nextOperand operand (operators k)) scope x m z s') (hs' : g.Settled k s') :
    g.Settled k m := by
  intro hdone
  cases h with
  | stop hnone =>
      rcases reads_nextOperand.mp hnone with ⟨_, _, _, _, _, _, _, _, _, hsome⟩ | ⟨_, _, rfl⟩
      · cases hsome
      · exact hs' hdone
  | next hsome _ => exact absurd hdone (inside_of_operand hsome)

theorem reader_agrees_of_succ (hinner : g.Levels inner inner') {k : Nat} (hk : 1 ≤ k ∧ k ≤ 5)
    (h : g.Agrees (k + 1) (reader inner (k + 1)) (reader inner' (k + 1))) :
    g.Agrees k (reader inner k) (reader inner' k) := by
  have hleft : ∀ {inner : Level} {scope : Scope}, inner.Derived → ∀ x s y m,
      Reads (nextOperand (reader inner (k + 1)) (operators k) x) scope s (some y) m → m.left < s.left :=
    fun hinner => nextOperand_left (fun h => (reader_derived hinner _ h).2) operators_reads
  rw [reader_eq_chain hk, reader_eq_chain hk]
  intro scope s t hscope hm
  refine (h hscope hm).before ?_ fun first m m' _ _ hm => ?_
  · intro first m e s' he hs'
    exact (settled_of_operands ((reads_repeatStep (hleft hinner.derived)).mp he) hs').mono (by omega)
  · exact carries_repeatStep (hleft hinner.derived) (hleft hinner.derived') settled_of_operands
      (fun left _ _ hm => carries_nextOperand h hscope left hm) first hm

/-- The phrases of the levels of operators. -/
theorem reader_agrees (hinner : g.Levels inner inner') {k : Nat} (hk : 1 ≤ k) :
    g.Agrees k (reader inner k) (reader inner' k) := by
  rcases Nat.lt_or_ge k 6 with hlt | hge
  · obtain ⟨d, hd⟩ := Nat.exists_eq_add_of_le (Nat.le_of_lt hlt)
    induction d generalizing k with
    | zero => omega
    | succ d ih =>
        refine reader_agrees_of_succ hinner ⟨hk, by omega⟩ ?_
        rcases Nat.lt_or_ge (k + 1) 6 with hlt' | hge'
        · exact ih (by omega) hlt' (by omega)
        · rw [reader_eq_unary hge', reader_eq_unary hge']
          exact unary_agrees hinner _
  · rw [reader_eq_unary hge, reader_eq_unary hge]
    exact unary_agrees hinner k

theorem conditional_agrees (hinner : g.Levels inner inner') :
    g.Agrees 0 (conditional inner) (conditional inner') := by
  intro scope s t hscope h
  have hdisjunction := reader_agrees hinner (k := 1) (Nat.le_refl 1) hscope h
  refine Carries.look (hdisjunction.before ?_ fun test m m' _ _ hm => ?_)
  · intro test m e s' he hs' hdone
    obtain ⟨_, _, hat, he⟩ := reads_bind.mp he
    obtain ⟨rfl, rfl⟩ := reads_at?.mp hat
    rcases reads_ite.mp he with ⟨hquestion, _⟩ | ⟨_, hpure⟩
    · simp [hdone] at hquestion
    · obtain ⟨-, rfl⟩ := reads_pure.mp hpure
      exact (hs' hdone).mono (Nat.zero_le 1)
  · refine Carries.ifAt hm (by decide) (fun hkind => ?_) (carries_pure (mapSlots g.rename) test hm)
    refine Carries.skip hm (by simp [Reading.Inside, hkind]) fun n n' hn => ?_
    refine (carries_inner hinner hscope hn).closed (by decide) fun yes p p' hp => ?_
    refine (hinner.expression hscope hp).before ?_ fun no q q' _ _ hq => ?_
    · intro no m e s' he hs'
      obtain ⟨-, rfl⟩ := reads_typed.mp he
      exact hs'
    · exact carries_typed hq (Typing.conditional_substitute test yes no)

/-- A text may be nested less deeply where it stands alone. -/
theorem levels (g : Graft) {n m : Nat} (h : n ≤ m) : g.Levels (level n) (level m) := by
  induction n generalizing m with
  | zero => exact ⟨fun _ _ => carries_fail, fun _ _ => carries_fail, level_derived 0, level_derived m⟩
  | succ n ih =>
      obtain ⟨m, rfl⟩ : ∃ m', m = m' + 1 := ⟨m - 1, by omega⟩
      have hinner := ih (m := m) (by omega)
      exact ⟨conditional_agrees hinner, unary_agrees hinner 6, level_derived (n + 1), level_derived (m + 1)⟩

end Graft

end RowQuery
