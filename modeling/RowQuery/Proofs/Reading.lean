import RowQuery.Grammar

/-!
What the readers of phrases do when they succeed. `Reads` relates a reader, the state before it, its
result and the state after it; each primitive reader has one equivalence, so that a phrase is taken
apart without opening the monad. A repetition is described by its steps: the fuel it is given is always
enough for steps that consume a token.
-/

namespace RowQuery

namespace Reading

/-- The number of tokens that are left, the one at hand included. -/
def left (s : Reading) : Nat := s.rest.length + if s.token.kind = .done then 0 else 1

theorem left_le_rest_length (s : Reading) : s.left ≤ s.rest.length + 1 := by
  unfold left
  split <;> omega

end Reading

namespace Parse

/-- What a reader does in a scope to a state. -/
def exec {α : Type} (p : Parse α) (scope : Scope) (s : Reading) : Except CompileError α × Reading :=
  p scope s

/-- A reader succeeds with a result and leaves a state. -/
def Reads {α : Type} (p : Parse α) (scope : Scope) (s : Reading) (a : α) (s' : Reading) : Prop :=
  exec p scope s = (.ok a, s')

variable {α β : Type} {scope : Scope} {s s' : Reading}

theorem Reads.unique {p : Parse α} {a b : α} {m : Reading} (h : Reads p scope s a s') (h' : Reads p scope s b m) :
    a = b ∧ s' = m := by
  cases h.symm.trans h'
  exact ⟨rfl, rfl⟩

theorem exec_bind (p : Parse α) (f : α → Parse β) :
    exec (p >>= f) scope s =
      match exec p scope s with
      | (.ok a, m) => exec (f a) scope m
      | (.error e, m) => (.error e, m) := by
  simp only [exec, bind, ReaderT.bind, ExceptT.bind, ExceptT.mk, StateT.bind, ExceptT.bindCont]
  rcases p scope s with ⟨r, m⟩
  cases r <;> rfl

theorem reads_bind {p : Parse α} {f : α → Parse β} {b : β} :
    Reads (p >>= f) scope s b s' ↔ ∃ a m, Reads p scope s a m ∧ Reads (f a) scope m b s' := by
  unfold Reads
  rw [exec_bind]
  rcases exec p scope s with ⟨r, m⟩
  cases r with
  | error e => simp
  | ok a =>
      constructor
      · intro h
        exact ⟨a, m, rfl, h⟩
      · rintro ⟨a', m', heq, h⟩
        cases heq
        exact h

theorem reads_pure {a b : α} : Reads (pure a) scope s b s' ↔ a = b ∧ s = s' := by
  show ((.ok a, s) : Except CompileError α × Reading) = (.ok b, s') ↔ _
  simp

theorem reads_get {r : Reading} : Reads get scope s r s' ↔ s = r ∧ s = s' := by
  show ((.ok s, s) : Except CompileError Reading × Reading) = (.ok r, s') ↔ _
  simp

theorem reads_set {r : Reading} {u : Unit} : Reads (set r) scope s u s' ↔ r = s' := by
  show ((.ok PUnit.unit, r) : Except CompileError PUnit × Reading) = (.ok u, s') ↔ _
  simp

theorem reads_modify {f : Reading → Reading} {u : Unit} :
    Reads (modify f) scope s u s' ↔ f s = s' := by
  show ((.ok PUnit.unit, f s) : Except CompileError PUnit × Reading) = (.ok u, s') ↔ _
  simp

theorem reads_read {c : Scope} : Reads read scope s c s' ↔ scope = c ∧ s = s' := by
  show ((.ok scope, s) : Except CompileError Scope × Reading) = (.ok c, s') ↔ _
  simp

theorem reads_throw {e : CompileError} {a : α} : ¬Reads (throw e) scope s a s' := by
  intro h
  have heq : ((.error e, s) : Except CompileError α × Reading) = (.ok a, s') := h
  simp at heq

theorem reads_withReader {f : Scope → Scope} {p : Parse α} {a : α} :
    Reads (withReader f p) scope s a s' ↔ Reads p (f scope) s a s' := Iff.rfl

theorem reads_newSlot {n : Nat} :
    Reads newSlot scope s n s' ↔ s.slots = n ∧ { s with slots := s.slots + 1 } = s' := by
  show ((.ok s.slots, _) : Except CompileError Nat × Reading) = (.ok n, s') ↔ _
  simp

theorem reads_token {t : Token} : Reads token scope s t s' ↔ s.token = t ∧ s = s' := by
  simp only [token, reads_bind, reads_get, reads_pure]
  constructor
  · rintro ⟨_, _, ⟨rfl, rfl⟩, h⟩
    exact h
  · intro h
    exact ⟨s, s, ⟨rfl, rfl⟩, h⟩

theorem reads_at? {k : TokenKind} {b : Bool} :
    Reads (at? k) scope s b s' ↔ (s.token.kind == k) = b ∧ s = s' := by
  simp only [at?, reads_bind, reads_token, reads_pure]
  constructor
  · rintro ⟨_, _, ⟨rfl, rfl⟩, h⟩
    exact h
  · intro h
    exact ⟨s.token, s, ⟨rfl, rfl⟩, h⟩

theorem reads_fail {fault : Fault} {a : α} : ¬Reads (fail fault) scope s a s' := by
  simp only [fail, reads_bind]
  rintro ⟨_, _, _, h⟩
  exact reads_throw h

theorem reads_require {k : TokenKind} {fault : Fault} {u : Unit} :
    Reads (require k fault) scope s u s' ↔ s.token.kind = k ∧ s = s' := by
  simp only [require, reads_bind, reads_at?]
  constructor
  · rintro ⟨_, _, ⟨rfl, rfl⟩, h⟩
    by_cases hk : s.token.kind = k
    · simp only [hk, BEq.rfl, Bool.not_true, Bool.false_eq_true, if_false, reads_pure] at h
      exact ⟨hk, h.2⟩
    · simp only [beq_eq_false_iff_ne.mpr hk, Bool.not_false, if_true] at h
      exact absurd h reads_fail
  · rintro ⟨hk, rfl⟩
    refine ⟨_, _, ⟨rfl, rfl⟩, ?_⟩
    simp [hk, reads_pure]

theorem reads_advance_iff {u : Unit} :
    Reads advance scope s u s' ↔
      (∃ t ts, s.rest = t :: ts ∧ { s with token := t, rest := ts } = s') ∨
      (∃ pos, s.rest = [] ∧ s.stop = .finished pos ∧ { s with token := ⟨.done, "", pos⟩ } = s') := by
  simp only [advance, reads_bind, reads_get]
  constructor
  · rintro ⟨_, _, ⟨rfl, rfl⟩, h⟩
    split at h
    · rename_i t ts hrest
      exact Or.inl ⟨t, ts, hrest, reads_set.mp h⟩
    · rename_i pos hrest hstop
      exact Or.inr ⟨pos, hrest, hstop, reads_set.mp h⟩
    · exact absurd h reads_throw
  · intro h
    refine ⟨s, s, ⟨rfl, rfl⟩, ?_⟩
    rcases h with ⟨t, ts, hrest, rfl⟩ | ⟨pos, hrest, hstop, rfl⟩
    · simp only [hrest, reads_set]
    · simp only [hrest, hstop, reads_set]

/-- Moving on leaves the slots, the shapes and the end of the text as they are. -/
theorem reads_advance {u : Unit} (h : Reads advance scope s u s') :
    s'.slots = s.slots ∧ s'.shapes = s.shapes ∧ s'.stop = s.stop ∧ s'.left ≤ s.left ∧
      (s.token.kind ≠ .done → s'.left < s.left) := by
  rcases reads_advance_iff.mp h with ⟨t, ts, hrest, rfl⟩ | ⟨pos, hrest, hstop, rfl⟩
  · simp only [Reading.left, hrest, List.length_cons, true_and]
    constructor
    · split <;> split <;> omega
    · intro hdone
      rw [if_neg hdone]
      split <;> omega
  · simp only [Reading.left, hrest, true_and]
    split <;> simp_all

theorem reads_expect {k : TokenKind} {fault : Fault} {u : Unit} :
    Reads (expect k fault) scope s u s' ↔ s.token.kind = k ∧ Reads advance scope s u s' := by
  simp only [expect, reads_bind, reads_require]
  constructor
  · rintro ⟨_, _, ⟨hk, rfl⟩, h⟩
    exact ⟨hk, h⟩
  · rintro ⟨hk, h⟩
    exact ⟨(), s, ⟨hk, rfl⟩, h⟩

theorem reads_typed {pos : Nat} {rule : Catalog → Except Fault Expr} {e : Expr} :
    Reads (typed pos rule) scope s e s' ↔ rule scope.catalog = .ok e ∧ s = s' := by
  simp only [typed, reads_bind, reads_read]
  constructor
  · rintro ⟨_, _, ⟨rfl, rfl⟩, h⟩
    cases hrule : rule scope.catalog with
    | ok e' =>
        simp only [hrule, reads_pure] at h
        exact ⟨by rw [h.1], h.2⟩
    | error fault =>
        simp only [hrule] at h
        exact absurd h reads_throw
  · rintro ⟨hrule, rfl⟩
    refine ⟨_, _, ⟨rfl, rfl⟩, ?_⟩
    simp [hrule, reads_pure]

theorem reads_ite {c : Prop} [Decidable c] {p q : Parse α} {a : α} :
    Reads (if c then p else q) scope s a s' ↔
      (c ∧ Reads p scope s a s') ∨ (¬c ∧ Reads q scope s a s') := by
  by_cases hc : c <;> simp [hc]

/-! ### Repetition -/

/-- A repetition seen as its steps: it ends where a step has nothing to do. -/
inductive Iterates {σ : Type} (step : σ → Parse (Option σ)) (scope : Scope) :
    σ → Reading → σ → Reading → Prop
  | stop {x : σ} {s s' : Reading} (h : Reads (step x) scope s none s') : Iterates step scope x s x s'
  | next {x y z : σ} {s m s' : Reading} (h : Reads (step x) scope s (some y) m)
      (later : Iterates step scope y m z s') : Iterates step scope x s z s'

variable {σ : Type} {step : σ → Parse (Option σ)}

/-- What every step keeps is kept by the repetition. -/
theorem Iterates.keeps {I : σ → Reading → Prop}
    (hnext : ∀ {x s y m}, I x s → Reads (step x) scope s (some y) m → I y m)
    (hstop : ∀ {x s m}, I x s → Reads (step x) scope s none m → I x m) {x z : σ}
    (h : Iterates step scope x s z s') (hx : I x s) : I z s' := by
  induction h with
  | stop h => exact hstop hx h
  | next h _ ih => exact ih (hnext hx h)

theorem reads_repeatUpTo_succ {n : Nat} {x z : σ} :
    Reads (repeatUpTo step (n + 1) x) scope s z s' ↔
      (x = z ∧ Reads (step x) scope s none s') ∨
        ∃ y m, Reads (step x) scope s (some y) m ∧ Reads (repeatUpTo step n y) scope m z s' := by
  rw [repeatUpTo, reads_bind]
  constructor
  · rintro ⟨_ | y, m, hstep, h⟩
    · obtain ⟨rfl, rfl⟩ := reads_pure.mp h
      exact Or.inl ⟨rfl, hstep⟩
    · exact Or.inr ⟨y, m, hstep, h⟩
  · rintro (⟨rfl, hstep⟩ | ⟨y, m, hstep, h⟩)
    · exact ⟨none, s', hstep, reads_pure.mpr ⟨rfl, rfl⟩⟩
    · exact ⟨some y, m, hstep, h⟩

theorem Iterates.reads_repeatUpTo
    (hstep : ∀ x s y m, Reads (step x) scope s (some y) m → m.left < s.left) {x z : σ}
    (h : Iterates step scope x s z s') :
    ∀ n, s.left < n → Reads (repeatUpTo step n x) scope s z s' := by
  induction h with
  | stop h =>
      intro n hn
      cases n with
      | zero => omega
      | succ n => exact reads_repeatUpTo_succ.mpr (Or.inl ⟨rfl, h⟩)
  | next h _ ih =>
      intro n hn
      cases n with
      | zero => omega
      | succ n =>
          have hlt := hstep _ _ _ _ h
          exact reads_repeatUpTo_succ.mpr (Or.inr ⟨_, _, h, ih n (by omega)⟩)

theorem iterates_of_reads_repeatUpTo
    (hstep : ∀ x s y m, Reads (step x) scope s (some y) m → m.left < s.left) {z : σ} :
    ∀ (n : Nat) (x : σ) (s : Reading), s.left < n → Reads (repeatUpTo step n x) scope s z s' →
      Iterates step scope x s z s' := by
  intro n
  induction n with
  | zero => intro x s hn _; omega
  | succ n ih =>
      intro x s hn h
      rcases reads_repeatUpTo_succ.mp h with ⟨rfl, hnone⟩ | ⟨y, m, hsome, hlater⟩
      · exact .stop hnone
      · have hlt := hstep _ _ _ _ hsome
        exact .next hsome (ih y m (by omega) hlater)

/-- A repetition of steps that consume tokens is never cut short. -/
theorem reads_repeatStep
    (hstep : ∀ x s y m, Reads (step x) scope s (some y) m → m.left < s.left) {x z : σ} :
    Reads (repeatStep step x) scope s z s' ↔ Iterates step scope x s z s' := by
  have hfuel : s.left < s.rest.length + 2 := by
    have := s.left_le_rest_length
    omega
  simp only [repeatStep, reads_bind, reads_get]
  constructor
  · rintro ⟨_, _, ⟨rfl, rfl⟩, h⟩
    exact iterates_of_reads_repeatUpTo hstep _ x s hfuel h
  · intro h
    exact ⟨s, s, ⟨rfl, rfl⟩, h.reads_repeatUpTo hstep _ hfuel⟩

/-! ### Items between commas and operands between operators -/

theorem reads_nextItem {item : List α → Parse α} {done : List α} {next : Option (List α)} :
    Reads (nextItem item done) scope s next s' ↔
      (s.token.kind = .comma ∧ ∃ m a, Reads advance scope s () m ∧ Reads (item done) scope m a s' ∧
        next = some (done ++ [a])) ∨
      (s.token.kind ≠ .comma ∧ next = none ∧ s = s') := by
  simp only [nextItem, reads_bind, reads_at?]
  constructor
  · rintro ⟨_, _, ⟨rfl, rfl⟩, h⟩
    rcases reads_ite.mp h with ⟨hcomma, h⟩ | ⟨hcomma, h⟩
    · simp only [reads_bind, reads_pure] at h
      obtain ⟨_, m, hm, a, _, ha, rfl, rfl⟩ := h
      exact Or.inl ⟨beq_iff_eq.mp hcomma, m, a, hm, ha, rfl⟩
    · obtain ⟨rfl, rfl⟩ := reads_pure.mp h
      exact Or.inr ⟨by simpa using hcomma, rfl, rfl⟩
  · rintro (⟨hcomma, m, a, hm, ha, rfl⟩ | ⟨hcomma, rfl, rfl⟩)
    · refine ⟨_, _, ⟨rfl, rfl⟩, reads_ite.mpr (Or.inl ⟨by simp [hcomma], ?_⟩)⟩
      simp only [reads_bind, reads_pure]
      exact ⟨(), m, hm, a, _, ha, rfl, rfl⟩
    · refine ⟨_, _, ⟨rfl, rfl⟩, reads_ite.mpr (Or.inr ⟨by simpa using hcomma, ?_⟩)⟩
      exact reads_pure.mpr ⟨rfl, rfl⟩

theorem nextItem_left {item : List α → Parse α}
    (hleft : ∀ {done s a s'}, Reads (item done) scope s a s' → s'.left < s.left) :
    ∀ x s y m, Reads (nextItem item x) scope s (some y) m → m.left < s.left := by
  intro x t y m h
  rcases reads_nextItem.mp h with ⟨hcomma, u, a, hu, ha, _⟩ | ⟨_, hnone, _⟩
  · have hlt := (reads_advance hu).2.2.2.2 (by simp [hcomma])
    exact Nat.lt_trans (hleft ha) hlt
  · simp at hnone

/-- Items that consume tokens are read one after the other for as long as there are commas. -/
theorem reads_separated {item : List α → Parse α} {as : List α}
    (hleft : ∀ {done s a s'}, Reads (item done) scope s a s' → s'.left < s.left) :
    Reads (separated item) scope s as s' ↔
      ∃ a m, Reads (item []) scope s a m ∧ Iterates (nextItem item) scope [a] m as s' := by
  simp only [separated, reads_bind, reads_repeatStep (nextItem_left hleft)]

theorem reads_nextOperand {operand : Parse Expr}
    {operator? : Token → Option (Token → Expr → Expr → Parse Expr)} {left : Expr}
    {next : Option Expr} :
    Reads (nextOperand operand operator? left) scope s next s' ↔
      (∃ combine m right m' e, operator? s.token = some combine ∧ Reads advance scope s () m ∧
        Reads operand scope m right m' ∧ Reads (combine s.token left right) scope m' e s' ∧
        next = some e) ∨
      (operator? s.token = none ∧ next = none ∧ s = s') := by
  simp only [nextOperand, reads_bind, reads_token]
  constructor
  · rintro ⟨_, _, ⟨rfl, rfl⟩, h⟩
    rcases hop : operator? s.token with _ | combine
    · simp only [hop, reads_pure] at h
      exact Or.inr ⟨rfl, h.1.symm, h.2⟩
    · simp only [hop, reads_bind, reads_pure] at h
      obtain ⟨_, m, hm, right, m', hright, e, _, he, rfl, rfl⟩ := h
      exact Or.inl ⟨combine, m, right, m', e, rfl, hm, hright, he, rfl⟩
  · rintro (⟨combine, m, right, m', e, hop, hm, hright, he, rfl⟩ | ⟨hop, rfl, rfl⟩)
    · refine ⟨_, _, ⟨rfl, rfl⟩, ?_⟩
      simp only [hop, reads_bind, reads_pure]
      exact ⟨(), m, hm, right, m', hright, e, s', he, rfl, rfl⟩
    · refine ⟨_, _, ⟨rfl, rfl⟩, ?_⟩
      simp only [hop]
      exact reads_pure.mpr ⟨rfl, rfl⟩

section

variable {operand : Parse Expr} {operator? : Token → Option (Token → Expr → Expr → Parse Expr)}
  (hleft : ∀ {s e s'}, Reads operand scope s e s' → s'.left < s.left)
  (hcombine : ∀ {t combine left right s e s'}, operator? t = some combine →
    Reads (combine t left right) scope s e s' → s' = s)

include hleft hcombine

theorem nextOperand_left :
    ∀ x s y m, Reads (nextOperand operand operator? x) scope s (some y) m → m.left < s.left := by
  intro x t y m h
  rcases reads_nextOperand.mp h with ⟨combine, u, right, u', e, hop, hu, hright, he, _⟩ | ⟨_, hnone, _⟩
  · rw [hcombine hop he]
    exact Nat.lt_of_lt_of_le (hleft hright) (reads_advance hu).2.2.2.1
  · simp at hnone

/-- Operands that consume tokens are joined for as long as there are operators. -/
theorem reads_chain {e : Expr} :
    Reads (chain operand operator?) scope s e s' ↔
      ∃ a m, Reads operand scope s a m ∧ Iterates (nextOperand operand operator?) scope a m e s' := by
  simp only [chain, reads_bind, reads_repeatStep (nextOperand_left hleft hcombine)]

end

end Parse

end RowQuery
