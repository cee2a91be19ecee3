import RowQuery.Proofs.Compilation
import RowQuery.Proofs.CursorProgress

/-!
Where the errors of a text are found. A reading goes along with the calls on one cursor: after so many calls it has the
scan of what is left of the text before it. The readers of phrases fail at the place of a token that one of these calls
gave, or with the fault that the next call gave, because every place they keep for later was the one of a token at hand.
So an error that is not about the declarations points into the text.
-/

namespace RowQuery

/-! ### Calls and the scan -/

namespace Cursor

variable {k : Cursor} {t : Token} {ts : List Token} {stop : Stop}

/-- A call on the cursor takes the first token off the scan. -/
theorem next_of_scan_cons (h : k.scan = ⟨t :: ts, stop⟩) : k.next.1 = .ok t ∧ k.next.2.scan = ⟨ts, stop⟩ := by
  rw [scan_eq] at h
  rcases hskip : k.skipBlank with ⟨pos, _ | ⟨c, cs⟩⟩
  · simp [hskip] at h
  · rcases hread : Lexeme.read c cs with ⟨⟨fault, offset⟩ | kind, n⟩
    · simp [hskip, hread] at h
    · simp only [hskip, hread, Scan.mk.injEq, List.cons.injEq] at h
      obtain ⟨⟨rfl, rfl⟩, rfl⟩ := h
      rw [next_of_ok hskip hread]
      exact ⟨rfl, rfl⟩

theorem next_of_scan_finished {pos : Nat} (h : k.scan = ⟨[], .finished pos⟩) :
    k.next.1 = .ok ⟨.done, "", pos⟩ ∧ k.next.2.scan = ⟨[], .finished pos⟩ := by
  rw [scan_eq] at h
  rcases hskip : k.skipBlank with ⟨pos, _ | ⟨c, cs⟩⟩
  · simp only [hskip, Scan.mk.injEq, Stop.finished.injEq, true_and] at h
    subst h
    rw [next_of_nil hskip]
    exact ⟨rfl, scan_of_nil rfl⟩
  · rcases hread : Lexeme.read c cs with ⟨⟨fault, offset⟩ | kind, n⟩ <;> simp [hskip, hread] at h

theorem next_of_scan_failed {e : CompileError} (h : k.scan = ⟨[], .failed e⟩) : k.next.1 = .error e := by
  rw [scan_eq] at h
  rcases hskip : k.skipBlank with ⟨pos, _ | ⟨c, cs⟩⟩
  · simp [hskip] at h
  · rcases hread : Lexeme.read c cs with ⟨⟨fault, offset⟩ | kind, n⟩
    · simp only [hskip, hread, Scan.mk.injEq, Stop.failed.injEq, true_and] at h
      rw [next_of_error hskip hread, h]
    · simp [hskip, hread] at h

theorem token_le_next (h : k.next.1 = .ok t) : t.pos ≤ k.next.2.pos := by
  rcases hskip : k.skipBlank with ⟨pos, _ | ⟨c, cs⟩⟩
  · rw [next_of_nil hskip] at h ⊢
    cases h
    exact Nat.le_refl _
  · rcases hread : Lexeme.read c cs with ⟨⟨fault, offset⟩ | kind, n⟩
    · rw [next_of_error hskip hread] at h
      cases h
    · rw [next_of_ok hskip hread] at h ⊢
      cases h
      exact Nat.le_add_right pos (n + 1)

/-- What a call on the cursor of a text gives; the calls are counted from zero. -/
def call (text : String) (i : Nat) : Except CompileError Token := (Cursor.after ⟨0, text.toList⟩ i).next.1

/-- The first calls on the cursor of a text gave a token at a position. -/
def Seen (text : String) (calls pos : Nat) : Prop := ∃ i < calls, ∃ t, call text i = .ok t ∧ t.pos = pos

variable {text : String} {n m pos : Nat}

theorem Seen.mono (h : Seen text n pos) (hnm : n ≤ m) : Seen text m pos := by
  obtain ⟨i, hi, ht⟩ := h
  exact ⟨i, Nat.lt_of_lt_of_le hi hnm, ht⟩

theorem after_le_length (text : String) (i : Nat) : (Cursor.after ⟨0, text.toList⟩ i).pos ≤ text.length := by
  have hwithin : (Cursor.after ⟨0, text.toList⟩ i).Within text.toList := Within.after ⟨Nat.zero_le _, rfl⟩ i
  exact String.length_toList ▸ hwithin.1

theorem Seen.le_length (h : Seen text n pos) : pos ≤ text.length := by
  obtain ⟨i, -, t, ht, rfl⟩ := h
  exact Nat.le_trans (token_le_next ht) (after_le_length text (i + 1))

end Cursor

open Cursor

/-! ### Readings and the calls they have made -/

namespace Reading

/-- A reading of a text after so many calls, all of which gave tokens: what it has before it is the scan of what is
left of the text. -/
structure Called (text : String) (calls : Nat) (s : Reading) : Prop where
  scanned : (Cursor.after ⟨0, text.toList⟩ calls).scan = ⟨s.rest, s.stop⟩
  tokens : ∀ i < calls, ∃ t, call text i = .ok t

/-- After so many calls, the token at hand is at a place that was seen. -/
structure Stands (text : String) (calls : Nat) (s : Reading) : Prop extends Called text calls s where
  seen : Seen text calls s.token.pos

end Reading

namespace Parse

variable {α β σ : Type} {text : String} {n m : Nat} {p : Parse α}

/-- What came of a reading that had made so many calls: a token at a place that was seen, or an error that is the one of
the next call or at such a place. -/
def Outcome (text : String) (calls : Nat) : Except CompileError α × Reading → Prop
  | (.ok _, s) => ∃ later ≥ calls, s.Stands text later
  | (.error e, s) => ∃ later ≥ calls, s.Called text later ∧ (call text later = .error e ∨ Seen text later e.position)

/-- From so many calls on, a reader points to places that were seen. -/
def Sited (text : String) (calls : Nat) (p : Parse α) : Prop :=
  ∀ n ≥ calls, ∀ (scope : Scope) (s : Reading), s.Stands text n → Outcome text n (exec p scope s)

theorem Outcome.mono {r : Except CompileError α × Reading} (h : Outcome text m r) (hnm : n ≤ m) : Outcome text n r := by
  rcases r with ⟨e | a, s⟩
  · obtain ⟨later, hle, hs⟩ := h
    exact ⟨later, Nat.le_trans hnm hle, hs⟩
  · obtain ⟨later, hle, hs⟩ := h
    exact ⟨later, Nat.le_trans hnm hle, hs⟩

/-- A call that is not met by a fault gives the token at hand. -/
theorem outcome_advance {scope : Scope} {s : Reading} (h : s.Called text n) :
    Outcome text n (exec advance scope s) := by
  obtain ⟨hscan, htokens⟩ := h
  have hcalled : ∀ {t}, call text n = .ok t → ∀ i < n + 1, ∃ t, call text i = .ok t := by
    intro t ht i hi
    rcases Nat.lt_succ_iff_lt_or_eq.mp hi with hi | rfl
    · exact htokens i hi
    · exact ⟨t, ht⟩
  rcases s with ⟨token, _ | ⟨t, ts⟩, pos | e, slots, shapes⟩
  · obtain ⟨hnext, hlater⟩ := next_of_scan_finished hscan
    exact ⟨n + 1, Nat.le_succ n, ⟨hlater, hcalled hnext⟩, n, Nat.lt_succ_self n, _, hnext, rfl⟩
  · exact ⟨n, Nat.le_refl n, ⟨hscan, htokens⟩, Or.inl (next_of_scan_failed hscan)⟩
  all_goals
    obtain ⟨hnext, hlater⟩ := next_of_scan_cons hscan
    exact ⟨n + 1, Nat.le_succ n, ⟨hlater, hcalled hnext⟩, n, Nat.lt_succ_self n, _, hnext, rfl⟩

namespace Sited

theorem mono (h : Sited text n p) (hnm : n ≤ m) : Sited text m p := fun k hk => h k (Nat.le_trans hnm hk)

theorem pure (a : α) : Sited text n (Pure.pure a) := fun k _ _ _ hs => ⟨k, Nat.le_refl k, hs⟩

theorem bind {f : α → Parse β} (hp : Sited text n p) (hf : ∀ a, Sited text n (f a)) : Sited text n (p >>= f) := by
  intro k hk scope s hs
  have h := hp k hk scope s hs
  rw [exec_bind]
  rcases hrun : exec p scope s with ⟨e | a, s'⟩ <;> rw [hrun] at h
  · exact h
  · obtain ⟨later, hle, hs'⟩ := h
    exact (hf a later (Nat.le_trans hk hle) scope s' hs').mono hle

theorem read : Sited text n MonadReader.read := fun k _ _ _ hs => ⟨k, Nat.le_refl k, hs⟩

theorem get : Sited text n MonadState.get := fun k _ _ _ hs => ⟨k, Nat.le_refl k, hs⟩

theorem modify {f : Reading → Reading} (hf : ∀ k ≥ n, ∀ s : Reading, s.Stands text k → (f s).Stands text k) :
    Sited text n (modify f) := fun k hk _ s hs => ⟨k, Nat.le_refl k, hf k hk s hs⟩

theorem withReader (h : Sited text n p) (f : Scope → Scope) : Sited text n (withReader f p) :=
  fun k hk scope s hs => h k hk (f scope) s hs

theorem throw {pos : Nat} (h : Seen text n pos) (fault : Fault) : Sited text n (throw ⟨fault, pos⟩ : Parse α) :=
  fun k hk _ _ hs => ⟨k, Nat.le_refl k, hs.toCalled, Or.inr (h.mono hk)⟩

theorem newSlot : Sited text n newSlot := fun k _ _ _ hs => ⟨k, Nat.le_refl k, ⟨hs.scanned, hs.tokens⟩, hs.seen⟩

theorem advance : Sited text n advance := fun _ _ _ _ hs => outcome_advance hs.toCalled

/-- What a reader does with the token at hand may rely on its place. -/
theorem look {f : Token → Parse α} (h : ∀ t m, n ≤ m → Seen text m t.pos → Sited text m (f t)) :
    Sited text n (token >>= f) :=
  fun k hk scope s hs => h s.token k hk hs.seen k (Nat.le_refl k) scope s hs

theorem fail (fault : Fault) : Sited text n (fail fault : Parse α) := look fun _ _ _ ht => throw ht fault

theorem at? (kind : TokenKind) : Sited text n (at? kind) := look fun _ _ _ _ => pure _

theorem require (kind : TokenKind) (fault : Fault) : Sited text n (require kind fault) := by
  refine (at? kind).bind fun found => ?_
  split
  · exact fail fault
  · exact pure _

theorem expect (kind : TokenKind) (fault : Fault) : Sited text n (expect kind fault) :=
  (require kind fault).bind fun _ => advance

theorem typed {pos : Nat} (h : Seen text n pos) (rule : Catalog → Except Fault Expr) :
    Sited text n (typed pos rule) := by
  refine read.bind fun scope => ?_
  split
  · exact pure _
  · exact throw h _

theorem repeatUpTo {step : σ → Parse (Option σ)} (h : ∀ x, Sited text n (step x)) (k : Nat) (x : σ) :
    Sited text n (repeatUpTo step k x) := by
  induction k generalizing x with
  | zero => exact pure x
  | succ k ih =>
      refine (h x).bind fun next => ?_
      split
      · exact ih _
      · exact pure _

theorem repeatStep {step : σ → Parse (Option σ)} (h : ∀ x, Sited text n (step x)) (x : σ) :
    Sited text n (repeatStep step x) := get.bind fun _ => repeatUpTo h _ x

theorem separated {item : List α → Parse α} (h : ∀ done, Sited text n (item done)) : Sited text n (separated item) := by
  refine (h []).bind fun first => repeatStep (fun done => ?_) [first]
  refine (at? .comma).bind fun comma => ?_
  split
  · exact advance.bind fun _ => (h done).bind fun next => pure _
  · exact pure _

theorem chain {operand : Parse Expr} {operator? : Token → Option (Token → Expr → Expr → Parse Expr)}
    (hoperand : Sited text n operand)
    (hcombine : ∀ {t m combine}, operator? t = some combine → Seen text m t.pos →
      ∀ left right, Sited text m (combine t left right)) : Sited text n (chain operand operator?) := by
  refine hoperand.bind fun first => repeatStep (fun left => ?_) first
  refine look fun t m hnm ht => ?_
  split
  · exact pure _
  · rename_i combine hop
    exact advance.bind fun _ => (hoperand.mono hnm).bind fun right =>
      (hcombine hop ht left right).bind fun e => pure _

end Sited

end Parse

/-! ### Phrases -/

namespace Grammar

open Parse

/-- The readers of what is inside a phrase point to places that were seen. -/
structure Level.Sited (text : String) (inner : Level) : Prop where
  expression : ∀ n, Parse.Sited text n inner.expression
  operand : ∀ n, Parse.Sited text n inner.operand

variable {text : String} {n : Nat} {inner : Level}

theorem sited_identifier : Sited text n identifier := by
  refine (Sited.require _ _).bind fun _ => .look fun t m _ _ => ?_
  dsimp only
  split <;> exact .pure _

theorem sited_literal (reading : Option Expr) (fault : Fault) : Sited text n (literal reading fault) := by
  unfold literal
  split
  · exact Sited.advance.bind fun _ => .pure _
  · exact .fail fault

theorem sited_fieldName {pos : Nat} (hpos : Seen text n pos) (e : Expr) : Sited text n (fieldName pos e) := by
  refine .look fun t m hnm _ => ?_
  split
  · exact Sited.advance.bind fun _ => sited_identifier.bind fun name => Sited.advance.bind fun _ => .pure name
  · split
    · exact .pure _
    · exact .throw (hpos.mono hnm) _

theorem sited_typeForm {pos : Nat} (hpos : Seen text n pos) (ty : Ty) : Sited text n (typeForm pos ty) := by
  refine (Sited.at? _).bind fun mark => ?_
  split
  · split
    · exact Sited.advance.bind fun _ => .pure _
    · exact .throw hpos _
  · exact .pure _

theorem sited_implicit : Sited text n implicit := by
  refine Sited.read.bind fun scope => ?_
  split
  · exact Sited.advance.bind fun _ => .pure _
  · exact .fail _

section

variable (hinner : inner.Sited text)

include hinner

theorem sited_arguments : Sited text n (arguments inner) :=
  .separated fun _ => hinner.expression n

theorem sited_argumentList : Sited text n (argumentList inner) := by
  refine (Sited.expect _ _).bind fun _ => (Sited.at? _).bind fun closed => ?_
  split
  · exact (Sited.pure _).bind fun args => (Sited.expect _ _).bind fun _ => .pure args
  · exact (sited_arguments hinner).bind fun args => (Sited.expect _ _).bind fun _ => .pure args

theorem sited_member (receiver : Typing.Receiver) : Sited text n (member inner receiver) := by
  refine .look fun t m _ ht => sited_identifier.bind fun name => Sited.advance.bind fun _ =>
    (Sited.at? _).bind fun call => ?_
  split
  · refine Sited.read.bind fun scope => ?_
    split
    · exact Sited.newSlot.bind fun slot => ((sited_argumentList hinner).withReader _).bind fun args => .typed ht _
    · exact (sited_argumentList hinner).bind fun args => .typed ht _
  · exact .typed ht _

theorem sited_element (e : Expr) : Sited text n (element inner e) :=
  .look fun _ _ _ ht => Sited.advance.bind fun _ => (sited_arguments hinner).bind fun _ =>
    (Sited.expect _ _).bind fun _ => .typed ht _

theorem sited_field (before : List (String × Expr)) : Sited text n (field inner before) := by
  refine .look fun t m _ ht => (hinner.expression m).bind fun e => (sited_fieldName ht e).bind fun name => ?_
  split
  · exact (Sited.throw ht _).bind fun _ => .pure _
  · exact .pure _

theorem sited_projection : Sited text n (projection inner) := by
  refine Sited.advance.bind fun _ => (Sited.expect _ _).bind fun _ =>
    (Sited.separated fun done => sited_field hinner done).bind fun fields =>
      (Sited.expect _ _).bind fun _ => (Sited.modify ?_).bind fun _ => .pure _
  exact fun _ _ _ hs => ⟨⟨hs.scanned, hs.tokens⟩, hs.seen⟩

theorem sited_conditionalCall : Sited text n (conditionalCall inner) := by
  refine .look fun t m _ ht => Sited.advance.bind fun _ => (sited_argumentList hinner).bind fun args => ?_
  split
  · exact .typed ht _
  · exact .throw ht _

theorem sited_typeAccess (ty : Ty) : Sited text n (typeAccess inner ty) := by
  refine .look fun t m _ ht => Sited.advance.bind fun _ => (sited_typeForm ht ty).bind fun form =>
    (Sited.at? _).bind fun call => ?_
  split
  · exact (sited_argumentList hinner).bind fun args => .typed ht _
  · exact (Sited.expect _ _).bind fun _ => sited_member hinner _

theorem sited_named (name : String) : Sited text n (named inner name) := by
  refine Sited.read.bind fun scope => ?_
  split
  · exact sited_typeAccess hinner _
  · split
    · exact Sited.advance.bind fun _ => .pure _
    · exact .look fun t m _ ht => Sited.advance.bind fun _ => (sited_argumentList hinner).bind fun args => .typed ht _
    · exact sited_member hinner _
    · exact .fail _

theorem sited_word (name : String) : Sited text n (word inner name) := by
  unfold word
  split
  · exact Sited.advance.bind fun _ => .pure _
  · exact Sited.advance.bind fun _ => .pure _
  · exact Sited.advance.bind fun _ => .pure _
  · exact sited_implicit
  · exact sited_conditionalCall hinner
  · exact sited_projection hinner
  · exact sited_named hinner name

theorem sited_primaryStart : Sited text n (primaryStart inner) := by
  refine .look fun t m _ _ => ?_
  split
  · exact sited_word hinner _
  · exact sited_literal _ _
  · exact sited_literal _ _
  · exact sited_literal _ _
  · exact Sited.advance.bind fun _ => (hinner.expression m).bind fun e => (Sited.expect _ _).bind fun _ => .pure e
  · exact .fail _

theorem sited_primary : Sited text n (primary inner) := by
  refine (sited_primaryStart hinner).bind fun first => .repeatStep (fun e => .look fun t m _ _ => ?_) first
  split
  · exact Sited.advance.bind fun _ => (sited_member hinner _).bind fun e => .pure _
  · exact (sited_element hinner e).bind fun e => .pure _
  · exact .pure _

/-- An operand, or a sign before one; where digits follow it, the sign is part of the number. -/
theorem sited_unary : Sited text n (unary inner) := by
  refine .look fun t m _ ht => ?_
  split
  · exact sited_primary hinner
  · refine Sited.advance.bind fun _ => .look fun next k hmk _ => ?_
    split
    · -- the digits take over the place of the sign before them
      refine (Sited.modify ?_).bind fun _ => sited_primary hinner
      exact fun l hkl s hs => ⟨⟨hs.scanned, hs.tokens⟩, ht.mono (Nat.le_trans hmk hkl)⟩
    · exact (hinner.operand k).bind fun e => .typed (ht.mono hmk) _

theorem sited_multiplicative : Sited text n (multiplicative inner) := by
  refine .chain (sited_unary hinner) fun hop ht left right => ?_
  obtain ⟨op, -, rfl⟩ := Option.map_eq_some_iff.mp hop
  exact .typed ht _

theorem sited_additive : Sited text n (additive inner) := by
  refine .chain (sited_multiplicative hinner) fun hop ht left right => ?_
  split at hop <;> cases hop
  · exact .typed ht _
  · exact .typed ht _
  · exact .pure _

theorem sited_comparison : Sited text n (comparison inner) := by
  refine .chain (sited_additive hinner) fun hop ht left right => ?_
  obtain ⟨op, -, rfl⟩ := Option.map_eq_some_iff.mp hop
  exact .typed ht _

theorem sited_conjunction : Sited text n (conjunction inner) := by
  refine .chain (sited_comparison hinner) fun hop ht left right => ?_
  split at hop <;> cases hop
  exact .typed ht _

theorem sited_disjunction : Sited text n (disjunction inner) := by
  refine .chain (sited_conjunction hinner) fun hop ht left right => ?_
  split at hop <;> cases hop
  exact .typed ht _

theorem sited_conditional : Sited text n (conditional inner) := by
  refine .look fun t m _ ht => (sited_disjunction hinner).bind fun test => (Sited.at? _).bind fun mark => ?_
  split
  · exact Sited.advance.bind fun _ => (hinner.expression m).bind fun yes => (Sited.expect _ _).bind fun _ =>
      (hinner.expression m).bind fun no => .typed ht _
  · exact .pure test

end

/-- By induction on the depth: what is inside a phrase is read one level further down. -/
theorem sited_level (text : String) (depth : Nat) : (level depth).Sited text := by
  induction depth with
  | zero => exact ⟨fun _ => .fail _, fun _ => .fail _⟩
  | succ depth ih => exact ⟨fun _ => sited_conditional ih, fun _ => sited_unary ih⟩

theorem sited_whole (result : Option Ty) : Sited text n (whole result) :=
  .look fun _ m _ ht => ((sited_level text maxDepth).expression m).bind fun _ => (Sited.typed ht _).bind fun e =>
    (Sited.require _ _).bind fun _ => .pure e

theorem sited_direction : Sited text n direction := by
  refine .look fun t m _ _ => ?_
  split
  · exact Sited.advance.bind fun _ => .pure _
  · split
    · exact Sited.advance.bind fun _ => .pure _
    · exact .pure _

theorem sited_ordering : Sited text n ordering :=
  (Sited.separated fun _ => ((sited_level text maxDepth).expression n).bind fun _ => sited_direction.bind fun _ =>
    .pure _).bind fun keys => (Sited.require _ _).bind fun _ => .pure keys

end Grammar

/-! ### Texts -/

theorem Shaping.exec_map_eq_error {ε α β : Type} {p : Shaping ε α} {f : α → β} {shapes : Shapes} {e : ε} :
    (Shaping.exec (do return f (← p)) shapes).1 = .error e ↔ (p.exec shapes).1 = .error e := by
  rw [exec_bind]
  rcases p.exec shapes with ⟨e' | a, made⟩
  · simp only [Except.error.injEq]
  · exact iff_of_false (fun h => by cases h) fun h => by cases h

namespace Environment

open Parse Grammar

variable {α : Type} {env : Environment} {params : List Param} {args : List Argument} {text : String} {shapes : Shapes}
  {phrase : Parse α} {e : CompileError}

/-- Where an error of a text is found: before the text, among the declarations of parameters and arguments; or in the
text after so many calls, and then the next call has failed with it, or one of the calls has given a token at its
place. -/
def Locates (env : Environment) (params : List Param) (args : List Argument) (text : String) (shapes : Shapes)
    (phrase : Parse α) (e : CompileError) : Prop :=
  (∃ fault, Symbols.ofText params args = .error fault ∧ e = ⟨fault, 0⟩) ∨
  ∃ symbols after calls, Symbols.ofText params args = .ok symbols ∧
    Parse.exec (do advance; phrase) (env.scope params symbols) (start params text shapes) = (.error e, after) ∧
    after.Called text calls ∧ (call text calls = .error e ∨ Seen text calls e.position)

theorem called_start : (start params text shapes).Called text 0 := ⟨rfl, fun _ hi => absurd hi (Nat.not_lt_zero _)⟩

/-- A reader of phrases that points to places that were seen does so from the start of a text. -/
theorem reading_locates (hphrase : ∀ n, Sited text n phrase)
    (h : ((env.reading params args text phrase).exec shapes).1 = .error e) :
    env.Locates params args text shapes phrase e := by
  cases hsymbols : Symbols.ofText params args with
  | error fault =>
      simp only [reading, Shaping.exec, hsymbols] at h
      cases h
      exact Or.inl ⟨fault, hsymbols, rfl⟩
  | ok symbols =>
      -- the first token is not at hand yet, so the first call is made by itself
      have hadvance : Outcome text 0 (exec advance (env.scope params symbols) (start params text shapes)) :=
        outcome_advance called_start
      have hrun : Outcome text 0 (exec (do advance; phrase) (env.scope params symbols) (start params text shapes)) := by
        rw [exec_bind]
        rcases hfirst : exec advance (env.scope params symbols) (start params text shapes) with ⟨e | _, s⟩ <;>
          rw [hfirst] at hadvance
        · exact hadvance
        · obtain ⟨later, hle, hs⟩ := hadvance
          exact (hphrase later later (Nat.le_refl _) _ s hs).mono hle
      rcases hexec : exec (do advance; phrase) (env.scope params symbols) (start params text shapes) with
        ⟨e' | a, after⟩ <;>
        rw [hexec] at hrun <;> rw [exec] at hexec <;> simp only [reading, Shaping.exec, hsymbols, hexec] at h
      · cases h
        obtain ⟨calls, -, hcalled, hplace⟩ := hrun
        exact Or.inr ⟨symbols, after, calls, hsymbols, hexec, hcalled, hplace⟩
      · cases h

theorem Locates.le_length (h : env.Locates params args text shapes phrase e) : e.position ≤ text.length := by
  rcases h with ⟨fault, -, rfl⟩ | ⟨-, -, calls, -, -, -, hfault | hseen⟩
  · exact Nat.zero_le _
  · exact Nat.le_trans (error_le_next hfault) (after_le_length text (calls + 1))
  · exact hseen.le_length

theorem compile_locates {decls : List ParamDecl} {result : Option Ty}
    (h : ((env.compile decls result text args).exec shapes).1 = .error e) :
    env.Locates (bindParams decls) args text shapes (whole result) e :=
  reading_locates (fun _ => sited_whole result) (Shaping.exec_map_eq_error.mp h)

theorem compileOrdering_locates {element : Ty}
    (h : ((env.compileOrdering element text args).exec shapes).1 = .error e) :
    env.Locates (bindParams [⟨none, element⟩]) args text shapes ordering e :=
  reading_locates (fun _ => sited_ordering) (Shaping.exec_map_eq_error.mp h)

/-- Compile errors point into the text. An error of an expression or of an ordering is no further than the end of the
text, and it is found among the declarations, at the start; where the scan of the text itself fails; or at a token
that the scan gave before the failure, the one at the end of the text included. -/
theorem error_points_into_text (env : Environment) (args : List Argument) (text : String) (shapes : Shapes)
    (e : CompileError) :
    (∀ decls result, ((env.compile decls result text args).exec shapes).1 = .error e →
      e.position ≤ text.length ∧ env.Locates (bindParams decls) args text shapes (whole result) e) ∧
    (∀ element, ((env.compileOrdering element text args).exec shapes).1 = .error e →
      e.position ≤ text.length ∧ env.Locates (bindParams [⟨none, element⟩]) args text shapes ordering e) :=
  ⟨fun _ _ h => ⟨(compile_locates h).le_length, compile_locates h⟩,
    fun _ h => ⟨(compileOrdering_locates h).le_length, compileOrdering_locates h⟩⟩

/-- A number that no type holds is reported at the sign before it, and an ordering that ends in a text without its
last quote at the end. -/
theorem error_points_into_text_signed :
    let env : Environment := ⟨.empty, .empty⟩
    (∃ e, ((env.compile [] none "1 * - 99999999999999999999" []).exec .empty).1 = .error e ∧ e.position = 4 ∧
      env.Locates [] [] "1 * - 99999999999999999999" .empty (whole none) e) ∧
    ∃ e, ((env.compileOrdering .int32 "it desc, 'a" []).exec .empty).1 = .error e ∧ e.position = 11 ∧
      env.Locates (bindParams [⟨none, .int32⟩]) [] "it desc, 'a" .empty ordering e := by
  intro env
  have hsign : (failure? ((env.compile [] none "1 * - 99999999999999999999" []).exec .empty).1).any
      (·.position == 4) := by decide +kernel
  have hquote : (failure? ((env.compileOrdering .int32 "it desc, 'a" []).exec .empty).1).any
      (·.position == 11) := by decide +kernel
  obtain ⟨e, he, hpos⟩ := failure?_any.mp hsign
  obtain ⟨e', he', hpos'⟩ := failure?_any.mp hquote
  exact ⟨⟨e, he, beq_iff_eq.mp hpos, ((error_points_into_text env [] _ .empty e).1 [] none he).2⟩,
    e', he', beq_iff_eq.mp hpos', ((error_points_into_text env [] _ .empty e').2 .int32 he').2⟩

end Environment

end RowQuery
