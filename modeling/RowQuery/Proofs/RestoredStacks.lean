import RowQuery.Proofs.OpenGrammar

/-!
The stacks of the reader. A reader of the grammar can keep the implicit parameters on a stack and count how deep
phrases are nested, instead of being handed both, and it can call itself without a bound. Such a reader does the same
as those of the grammar. Whether it succeeds or fails, it leaves the stack and the counter as they were, because every
call that changes them changes them back on both ways out. It always returns: calls go deeper until the counter stops
them, and the rounds of a loop take up tokens, so that the depth that is left and the tokens that are left together
bound all calls and rounds.
-/

namespace RowQuery

open Parse Grammar

/-! ### Readers with stacks -/

/-- The state of a reader with stacks: what is read, the implicit parameters with the one in force on top, how deep
phrases are nested, and how deep they have been nested at most. -/
structure Machine where
  reading : Reading
  its : List Expr
  depth : Nat
  deepest : Nat

namespace Machine

/-- The scope with the implicit parameter that is on top of the stack. -/
def scope (m : Machine) (scope : Scope) : Scope := { scope with it := m.its.head? }

/-- So many nested calls and rounds are enough: the depth that is left, and the tokens that are left. -/
def calls (m : Machine) : Nat := maxDepth - m.depth + m.reading.rest.length + 3

/-- The state before a text is read. -/
def start (params : List Param) (text : String) (shapes : Shapes) : Machine :=
  ⟨Environment.start params text shapes, (Environment.implicit? params).toList, 0, 0⟩

end Machine

/-- A reader of phrases with stacks. It keeps its state when it fails, and it may have no answer. -/
abbrev StackReader := ReaderT Scope (ExceptT CompileError (StateT Machine Option))

namespace StackReader

variable {α β σ : Type}

/-- A reader of tokens leaves the stacks alone. -/
def lift (p : Parse α) : StackReader α := fun scope m =>
  some ((exec p (m.scope scope) m.reading).1, { m with reading := (exec p (m.scope scope) m.reading).2 })

def unanswered : StackReader α := fun _ _ => none

/-- Reads one level deeper and comes back, after a failure, too. -/
def nested (f : StackReader α) : StackReader α := fun scope m =>
  if m.depth < maxDepth then
    (f scope { m with depth := m.depth + 1, deepest := max m.deepest (m.depth + 1) }).map fun out =>
      (out.1, { out.2 with depth := out.2.depth - 1 })
  else some (.error ⟨.tooDeep, m.reading.token.pos⟩, m)

/-- Reads with another implicit parameter on the stack and takes it off, after a failure, too. -/
def pushed (it : Expr) (f : StackReader α) : StackReader α := fun scope m =>
  (f scope { m with its := it :: m.its }).map fun out => (out.1, { out.2 with its := out.2.its.tail })

/-- Repeats a step until it has nothing to do. There is no answer after so many rounds. -/
def rounds (step : σ → StackReader (Option σ)) : Nat → σ → StackReader σ
  | 0, _ => unanswered
  | n + 1, x => do
    match ← step x with
    | some next => rounds step n next
    | none => pure x

/-- The actions of readers that call themselves. There is no answer after so many nested calls, or rounds of a loop. -/
def actions : Nat → Actions StackReader
  | 0 => ⟨lift, unanswered, unanswered, pushed, fun _ _ => unanswered⟩
  | n + 1 => ⟨lift, nested (actions n).conditional, nested (actions n).unary, pushed, fun step => rounds step (n + 1)⟩

section

variable {f : StackReader α} {g : α → StackReader β} {scope : Scope} {m m' : Machine}

theorem bind_of_ok {a : α} (h : f scope m = some (.ok a, m')) : (f >>= g) scope m = g a scope m' := by
  simp only [bind, ReaderT.bind, ExceptT.bind, ExceptT.mk, StateT.bind, h, Option.bind_some, ExceptT.bindCont]

theorem bind_of_error {e : CompileError} (h : f scope m = some (.error e, m')) :
    (f >>= g) scope m = some (.error e, m') := by
  simp only [bind, ReaderT.bind, ExceptT.bind, ExceptT.mk, StateT.bind, h, Option.bind_some, ExceptT.bindCont]
  rfl

theorem actions_lift (n : Nat) (p : Parse α) : (actions n).lift p = lift p := by cases n <;> rfl

theorem actions_inside (n : Nat) (it : Expr) (f : StackReader α) : (actions n).inside it f = pushed it f := by
  cases n <;> rfl

end

end StackReader

/-! ### What no reader of tokens does -/

namespace Parse

variable {α β : Type} {p : Parse α}

/-- A reader gives back no slot and no token, whether it succeeds or fails. -/
def Steady (p : Parse α) : Prop :=
  ∀ (scope : Scope) (s : Reading),
    s.slots ≤ (exec p scope s).2.slots ∧ (exec p scope s).2.rest.length ≤ s.rest.length

namespace Steady

theorem of_same (h : ∀ scope s, (exec p scope s).2 = s) : Steady p := by
  intro scope s
  rw [h scope s]
  exact ⟨Nat.le_refl _, Nat.le_refl _⟩

theorem pure (a : α) : Steady (Pure.pure a) := of_same fun _ _ => rfl

theorem bind {q : α → Parse β} (hp : Steady p) (hq : ∀ a, Steady (q a)) : Steady (p >>= q) := by
  intro scope s
  obtain ⟨hslots, hrest⟩ := hp scope s
  rw [exec_bind]
  generalize exec p scope s = out at hslots hrest ⊢
  rcases out with ⟨e | a, s'⟩
  · exact ⟨hslots, hrest⟩
  · obtain ⟨hslots', hrest'⟩ := hq a scope s'
    exact ⟨Nat.le_trans hslots hslots', Nat.le_trans hrest' hrest⟩

theorem read : Steady MonadReader.read := of_same fun _ _ => rfl

theorem throw (e : CompileError) : Steady (throw e : Parse α) := of_same fun _ _ => rfl

theorem token : Steady token := of_same fun _ _ => rfl

theorem at? (kind : TokenKind) : Steady (at? kind) := of_same fun _ _ => rfl

theorem fail (fault : Fault) : Steady (fail fault : Parse α) := of_same fun _ _ => rfl

theorem newSlot : Steady newSlot := fun _ s => ⟨Nat.le_succ s.slots, Nat.le_refl _⟩

theorem advance : Steady advance := by
  intro scope s
  rcases s with ⟨t, _ | ⟨next, rest⟩, pos | fault, slots, shapes⟩
  · exact ⟨Nat.le_refl _, Nat.le_refl _⟩
  · exact ⟨Nat.le_refl _, Nat.le_refl _⟩
  · exact ⟨Nat.le_refl _, Nat.le_succ _⟩
  · exact ⟨Nat.le_refl _, Nat.le_succ _⟩

theorem require (kind : TokenKind) (fault : Fault) : Steady (require kind fault) := by
  refine (at? kind).bind fun found => ?_
  split
  · exact fail fault
  · exact pure _

theorem expect (kind : TokenKind) (fault : Fault) : Steady (expect kind fault) :=
  (require kind fault).bind fun _ => advance

theorem typed (pos : Nat) (rule : Catalog → Except Fault Expr) : Steady (typed pos rule) := by
  refine read.bind fun scope => ?_
  split
  · exact pure _
  · exact throw _

theorem repeatUpTo {σ : Type} {step : σ → Parse (Option σ)} (h : ∀ x, Steady (step x)) (k : Nat) (x : σ) :
    Steady (repeatUpTo step k x) := by
  induction k generalizing x with
  | zero => exact pure x
  | succ k ih =>
      refine (h x).bind fun next => ?_
      split
      · exact ih _
      · exact pure _

end Steady

end Parse

namespace Grammar

theorem steady_identifier : Steady identifier := by
  refine (Steady.require _ _).bind fun _ => Steady.token.bind fun t => ?_
  dsimp only
  split <;> exact .pure _

theorem steady_literal (reading : Option Expr) (fault : Fault) : Steady (literal reading fault) := by
  unfold literal
  split
  · exact Steady.advance.bind fun _ => .pure _
  · exact .fail fault

theorem steady_implicit : Steady implicit := by
  refine Steady.read.bind fun scope => ?_
  split
  · exact Steady.advance.bind fun _ => .pure _
  · exact .fail _

theorem steady_fieldName (pos : Nat) (e : Expr) : Steady (fieldName pos e) := by
  refine Steady.token.bind fun t => ?_
  split
  · exact Steady.advance.bind fun _ => steady_identifier.bind fun name => Steady.advance.bind fun _ => .pure name
  · split
    · exact .pure _
    · exact .throw _

theorem steady_typeForm (pos : Nat) (ty : Ty) : Steady (typeForm pos ty) := by
  refine (Steady.at? _).bind fun mark => ?_
  split
  · split
    · exact Steady.advance.bind fun _ => .pure _
    · exact .throw _
  · exact .pure _

theorem steady_direction : Steady direction := by
  refine Steady.token.bind fun t => ?_
  split
  · exact Steady.advance.bind fun _ => .pure _
  · split
    · exact Steady.advance.bind fun _ => .pure _
    · exact .pure _

theorem steady_operators {k : Nat} {t : Token} {combine : Token → Expr → Expr → Parse Expr}
    (h : operators k t = some combine) (left right : Expr) : Steady (combine t left right) := by
  have hjoining : ∀ rule, Steady (joining rule t left right) := fun rule => .typed _ _
  unfold operators at h
  split at h
  · split at h <;> cases h
    exact hjoining _
  · split at h <;> cases h
    exact hjoining _
  · obtain ⟨op, -, rfl⟩ := Option.map_eq_some_iff.mp h
    exact hjoining _
  · split at h <;> cases h
    · exact hjoining _
    · exact hjoining _
    · exact .pure _
  · obtain ⟨op, -, rfl⟩ := Option.map_eq_some_iff.mp h
    exact hjoining _
  · cases h

end Grammar

/-! ### Agreement -/

namespace StackReader

variable {α β σ : Type} {n d : Nat} {p : Parse α} {f : StackReader α}

/-- Readers with and without stacks agree at a depth: if so many calls are enough there is an answer, which is the one
of the reader without stacks, and the stacks are as they were. -/
structure Agrees (n d : Nat) (f : StackReader α) (p : Parse α) : Prop where
  steady : Steady p
  answers (scope : Scope) (m : Machine) (hdepth : m.depth = d) (hm : m.deepest ≤ maxDepth) (hcalls : m.calls ≤ n) :
    ∃ deepest ≤ maxDepth, f scope m = some ((exec p (m.scope scope) m.reading).1,
      { m with reading := (exec p (m.scope scope) m.reading).2, deepest := deepest })

namespace Agrees

theorem lift (hp : Steady p) : Agrees n d ((actions n).lift p) p := by
  refine ⟨hp, fun scope m _ hm _ => ⟨m.deepest, hm, ?_⟩⟩
  rw [actions_lift]
  rfl

/-- With no calls at all nothing is asked. -/
theorem of_zero (hp : Steady p) : Agrees 0 d f p := ⟨hp, fun _ _ _ _ hcalls => absurd hcalls (Nat.not_succ_le_zero _)⟩

theorem pure (a : α) : Agrees n d (Pure.pure a) (Pure.pure a) :=
  ⟨.pure a, fun _ m _ hm _ => ⟨m.deepest, hm, rfl⟩⟩

theorem bind {g : α → StackReader β} {q : α → Parse β} (hf : Agrees n d f p) (hg : ∀ a, Agrees n d (g a) (q a)) :
    Agrees n d (f >>= g) (p >>= q) := by
  refine ⟨hf.steady.bind fun a => (hg a).steady, fun scope m hdepth hm hcalls => ?_⟩
  obtain ⟨deepest, hdeepest, hrun⟩ := hf.answers scope m hdepth hm hcalls
  have hrest := (hf.steady (m.scope scope) m.reading).2
  rw [exec_bind]
  generalize exec p (m.scope scope) m.reading = out at hrun hrest ⊢
  rcases out with ⟨e | a, s⟩
  · exact ⟨deepest, hdeepest, bind_of_error hrun⟩
  · have hcalls' : Machine.calls { m with reading := s, deepest := deepest } ≤ n :=
      Nat.le_trans (Nat.add_le_add_right (Nat.add_le_add_left hrest _) _) hcalls
    obtain ⟨deepest', hdeepest', hrun'⟩ :=
      (hg a).answers scope { m with reading := s, deepest := deepest } hdepth hdeepest hcalls'
    exact ⟨deepest', hdeepest', (bind_of_ok hrun).trans hrun'⟩

theorem ite {c : Prop} [Decidable c] {g : StackReader α} {q : Parse α} (hf : Agrees n d f p) (hg : Agrees n d g q) :
    Agrees n d (if c then f else g) (if c then p else q) := by
  split
  · exact hf
  · exact hg

/-- A parameter that is put on the stack is the one in force, and it is taken off. -/
theorem inside {it : Expr} (h : Agrees n d f p) :
    Agrees n d ((actions n).inside it f) (withReader ({ · with it := some it }) p) := by
  refine ⟨fun scope => h.steady _, fun scope m hdepth hm hcalls => ?_⟩
  obtain ⟨deepest, hdeepest, hrun⟩ := h.answers scope { m with its := it :: m.its } hdepth hm hcalls
  refine ⟨deepest, hdeepest, ?_⟩
  rw [actions_inside, pushed, hrun]
  rfl

/-- What is read one level deeper is left again. -/
theorem nested (hd : d < maxDepth) (h : Agrees n (d + 1) f p) : Agrees (n + 1) d (StackReader.nested f) p := by
  refine ⟨h.steady, fun scope m hdepth hm hcalls => ?_⟩
  subst hdepth
  have hdeeper : max m.deepest (m.depth + 1) ≤ maxDepth := Nat.max_le.mpr ⟨hm, hd⟩
  have hfewer : Machine.calls { m with depth := m.depth + 1, deepest := max m.deepest (m.depth + 1) } ≤ n := by
    have hcalls : maxDepth - m.depth + m.reading.rest.length + 3 ≤ n + 1 := hcalls
    show maxDepth - (m.depth + 1) + m.reading.rest.length + 3 ≤ n
    omega
  obtain ⟨deepest, hdeepest, hrun⟩ := h.answers scope _ rfl hdeeper hfewer
  refine ⟨deepest, hdeepest, ?_⟩
  rw [StackReader.nested, if_pos hd, hrun]
  rfl

theorem rounds {step : σ → StackReader (Option σ)} {q : σ → Parse (Option σ)} (hstep : ∀ x, Agrees n d (step x) (q x))
    (hleft : ∀ scope x s y s', Reads (q x) scope s (some y) s' → s'.left < s.left) {scope : Scope} (i j : Nat) (x : σ)
    (m : Machine) (hdepth : m.depth = d) (hm : m.deepest ≤ maxDepth) (hcalls : m.calls ≤ n) (hi : m.reading.left < i)
    (hj : m.reading.left < j) :
    ∃ deepest ≤ maxDepth, StackReader.rounds step i x scope m =
      some ((exec (repeatUpTo q j x) (m.scope scope) m.reading).1,
        { m with reading := (exec (repeatUpTo q j x) (m.scope scope) m.reading).2, deepest := deepest }) := by
  -- each round but the last one takes up a token
  induction i generalizing j x m with
  | zero => omega
  | succ i ih =>
      cases j with
      | zero => omega
      | succ j =>
          obtain ⟨deepest, hdeepest, hrun⟩ := (hstep x).answers scope m hdepth hm hcalls
          have hless := hleft (m.scope scope) x m.reading
          have hrest := ((hstep x).steady (m.scope scope) m.reading).2
          rw [StackReader.rounds, repeatUpTo, exec_bind]
          unfold Reads at hless
          generalize exec (q x) (m.scope scope) m.reading = out at hrun hless hrest ⊢
          rcases out with ⟨e | _ | y, s⟩
          · exact ⟨deepest, hdeepest, bind_of_error hrun⟩
          · exact ⟨deepest, hdeepest, bind_of_ok hrun⟩
          · have hlt : s.left < m.reading.left := hless y s rfl
            have hcalls' : Machine.calls { m with reading := s, deepest := deepest } ≤ n :=
              Nat.le_trans (Nat.add_le_add_right (Nat.add_le_add_left hrest _) _) hcalls
            obtain ⟨deepest', hdeepest', hlater⟩ :=
              ih j y { m with reading := s, deepest := deepest } hdepth hdeepest hcalls'
              (Nat.lt_of_lt_of_le hlt (Nat.le_of_lt_succ hi)) (Nat.lt_of_lt_of_le hlt (Nat.le_of_lt_succ hj))
            exact ⟨deepest', hdeepest', (bind_of_ok hrun).trans hlater⟩

/-- A step that takes up tokens is repeated until it has nothing to do. -/
theorem repeated {step : σ → StackReader (Option σ)} {q : σ → Parse (Option σ)} (hstep : ∀ x, Agrees n d (step x) (q x))
    (hleft : ∀ scope x s y s', Reads (q x) scope s (some y) s' → s'.left < s.left) (x : σ) :
    Agrees n d ((actions n).repeated step x) (repeatStep q x) := by
  refine ⟨fun scope s => Steady.repeatUpTo (fun x => (hstep x).steady) _ x scope s, fun scope m hdepth hm hcalls => ?_⟩
  have henough : maxDepth - m.depth + m.reading.rest.length + 3 ≤ n := hcalls
  have hrest := m.reading.left_le_rest_length
  cases n with
  | zero => omega
  | succ n => exact rounds hstep hleft (n + 1) _ x m hdepth hm hcalls (by omega) (by omega)

end Agrees

/-! ### Phrases -/

/-- The readers of what is inside a phrase agree. -/
structure AgreesInside (n d : Nat) (inner : Level) : Prop where
  expression : Agrees n d (actions n).expression inner.expression
  operand : Agrees n d (actions n).operand inner.operand
  derived : inner.Derived

variable {inner : Level}

theorem agrees_separated {item : List α → StackReader α} {q : List α → Parse α}
    (h : ∀ done, Agrees n d (item done) (q done))
    (hleft : ∀ {scope done s a s'}, Reads (q done) scope s a s' → s'.left < s.left) :
    Agrees n d ((actions n).separated item) (separated q) := by
  refine (h []).bind fun first => .repeated (fun done => ?_) (fun scope => nextItem_left hleft) [first]
  refine (Agrees.lift (.at? _)).bind fun comma => ?_
  refine .ite ?_ (.pure _)
  exact (Agrees.lift .advance).bind fun _ => (h done).bind fun next => .pure _

theorem agrees_chain (k : Nat) {operand : StackReader Expr} {q : Parse Expr} (h : Agrees n d operand q)
    (hq : Derived q) : Agrees n d ((actions n).chain k operand) (inner.actions.chain k q) := by
  have hstep : ∀ left, Agrees n d ((actions n).nextOperand k operand left) (inner.actions.nextOperand k q left) := by
    intro left
    refine (Agrees.lift .token).bind fun t => ?_
    split
    · exact .pure _
    · rename_i combine hop
      exact (Agrees.lift .advance).bind fun _ => h.bind fun right =>
        (Agrees.lift (steady_operators hop left right)).bind fun e => .pure _
  exact h.bind fun first => .repeated hstep (fun _ => nextOperand_left (fun h => (hq h).2) operators_reads) first

section

variable (hinner : AgreesInside n d inner)

include hinner

theorem agrees_arguments : Agrees n d (actions n).arguments inner.actions.arguments :=
  agrees_separated (fun _ => hinner.expression) fun h => (hinner.derived.expression h).2

theorem agrees_argumentList : Agrees n d (actions n).argumentList inner.actions.argumentList := by
  refine (Agrees.lift (.expect _ _)).bind fun _ => (Agrees.lift (.at? _)).bind fun closed => .ite ?_ ?_
  · exact (Agrees.pure _).bind fun args => (Agrees.lift (.expect _ _)).bind fun _ => .pure args
  · exact (agrees_arguments hinner).bind fun args => (Agrees.lift (.expect _ _)).bind fun _ => .pure args

theorem agrees_member (receiver : Typing.Receiver) :
    Agrees n d ((actions n).member receiver) (inner.actions.member receiver) := by
  refine (Agrees.lift .token).bind fun t => (Agrees.lift steady_identifier).bind fun name =>
    (Agrees.lift .advance).bind fun _ => (Agrees.lift (.at? _)).bind fun call =>
      .ite ((Agrees.lift .read).bind fun scope => ?_) (.lift (.typed _ _))
  split
  · exact (Agrees.lift .newSlot).bind fun slot => (agrees_argumentList hinner).inside.bind fun args =>
      .lift (.typed _ _)
  · exact (agrees_argumentList hinner).bind fun args => .lift (.typed _ _)

theorem agrees_element (e : Expr) : Agrees n d ((actions n).element e) (inner.actions.element e) :=
  (Agrees.lift .token).bind fun _ => (Agrees.lift .advance).bind fun _ => (agrees_arguments hinner).bind fun _ =>
    (Agrees.lift (.expect _ _)).bind fun _ => .lift (.typed _ _)

theorem agrees_field (before : List (String × Expr)) :
    Agrees n d ((actions n).field before) (inner.actions.field before) := by
  refine (Agrees.lift .token).bind fun t => hinner.expression.bind fun e =>
    (Agrees.lift (steady_fieldName _ e)).bind fun name => ?_
  exact .ite ((Agrees.lift (.throw _)).bind fun _ => .pure _) (.pure _)

theorem agrees_projection : Agrees n d (actions n).projection inner.actions.projection := by
  have hfields : Agrees n d ((actions n).separated (actions n).field) (inner.actions.separated inner.actions.field) :=
    agrees_separated (agrees_field hinner) fun h => (field_reads hinner.derived h).2
  refine (Agrees.lift .advance).bind fun _ => (Agrees.lift (.expect _ _)).bind fun _ => hfields.bind fun fields =>
    (Agrees.lift (.expect _ _)).bind fun _ => (Agrees.lift ?_).bind fun _ => .pure _
  exact fun scope s => ⟨Nat.le_refl _, Nat.le_refl _⟩

theorem agrees_conditionalCall : Agrees n d (actions n).conditionalCall inner.actions.conditionalCall := by
  refine (Agrees.lift .token).bind fun t => (Agrees.lift .advance).bind fun _ =>
    (agrees_argumentList hinner).bind fun args => ?_
  split
  · exact .lift (.typed _ _)
  · exact .lift (.throw _)

theorem agrees_invocation (l : Lambda) : Agrees n d ((actions n).invocation l) (inner.actions.invocation l) :=
  (Agrees.lift .token).bind fun _ => (Agrees.lift .advance).bind fun _ => (agrees_argumentList hinner).bind fun _ =>
    .lift (.typed _ _)

theorem agrees_typeAccess (ty : Ty) : Agrees n d ((actions n).typeAccess ty) (inner.actions.typeAccess ty) := by
  refine (Agrees.lift .token).bind fun t => (Agrees.lift .advance).bind fun _ =>
    (Agrees.lift (steady_typeForm _ ty)).bind fun form => (Agrees.lift (.at? _)).bind fun call => .ite ?_ ?_
  · exact (agrees_argumentList hinner).bind fun args => .lift (.typed _ _)
  · exact (Agrees.lift (.expect _ _)).bind fun _ => agrees_member hinner _

theorem agrees_named (text : String) : Agrees n d ((actions n).named text) (inner.actions.named text) := by
  refine (Agrees.lift .read).bind fun scope => ?_
  split
  · exact agrees_typeAccess hinner _
  · split
    · exact (Agrees.lift .advance).bind fun _ => .pure _
    · exact agrees_invocation hinner _
    · exact agrees_member hinner _
    · exact .lift (.fail _)

theorem agrees_word (text : String) : Agrees n d ((actions n).word text) (inner.actions.word text) := by
  unfold Actions.word
  split
  · exact (Agrees.lift .advance).bind fun _ => .pure _
  · exact (Agrees.lift .advance).bind fun _ => .pure _
  · exact (Agrees.lift .advance).bind fun _ => .pure _
  · exact .lift steady_implicit
  · exact agrees_conditionalCall hinner
  · exact agrees_projection hinner
  · exact agrees_named hinner text

theorem agrees_primaryStart : Agrees n d (actions n).primaryStart inner.actions.primaryStart := by
  refine (Agrees.lift .token).bind fun t => ?_
  split
  · exact agrees_word hinner _
  · exact .lift (steady_literal _ _)
  · exact .lift (steady_literal _ _)
  · exact .lift (steady_literal _ _)
  · exact (Agrees.lift .advance).bind fun _ => hinner.expression.bind fun e =>
      (Agrees.lift (.expect _ _)).bind fun _ => .pure e
  · exact .lift (.fail _)

theorem agrees_nextMember (e : Expr) : Agrees n d ((actions n).nextMember e) (inner.actions.nextMember e) := by
  refine (Agrees.lift .token).bind fun t => ?_
  split
  · exact (Agrees.lift .advance).bind fun _ => (agrees_member hinner _).bind fun e => .pure _
  · exact (agrees_element hinner e).bind fun e => .pure _
  · exact .pure _

theorem agrees_primary : Agrees n d (actions n).primary inner.actions.primary :=
  (agrees_primaryStart hinner).bind fun e =>
    .repeated (agrees_nextMember hinner) (fun _ => nextMember_left hinner.derived) e

theorem agrees_unary : Agrees n d (actions n).unary inner.actions.unary := by
  refine (Agrees.lift .token).bind fun t => ?_
  split
  · exact agrees_primary hinner
  · refine (Agrees.lift .advance).bind fun _ => (Agrees.lift .token).bind fun next => ?_
    refine .ite ?_ ?_
    · exact (Agrees.lift fun _ _ => ⟨Nat.le_refl _, Nat.le_refl _⟩).bind fun _ => agrees_primary hinner
    · exact hinner.operand.bind fun e => .lift (.typed _ _)

theorem agrees_binary {k : Nat} (hk : k ≤ 5) : Agrees n d ((actions n).binary k) (inner.actions.binary k) := by
  induction k with
  | zero => exact agrees_unary hinner
  | succ k ih =>
      have hderived : Derived (inner.actions.binary k) := by
        rw [actions_binary inner (Nat.le_of_succ_le hk)]
        exact reader_derived hinner.derived _
      exact agrees_chain (5 - k) (ih (Nat.le_of_succ_le hk)) hderived

theorem agrees_conditional : Agrees n d (actions n).conditional inner.actions.conditional := by
  refine (Agrees.lift .token).bind fun t => (agrees_binary hinner (Nat.le_refl 5)).bind fun test =>
    (Agrees.lift (.at? _)).bind fun mark => .ite ?_ ?_
  · exact (Agrees.lift .advance).bind fun _ => hinner.expression.bind fun yes =>
      (Agrees.lift (.expect _ _)).bind fun _ => hinner.expression.bind fun no => .lift (.typed _ _)
  · exact .pure _

theorem agrees_whole (result : Option Ty) : Agrees n d ((actions n).whole result) (inner.actions.whole result) :=
  (Agrees.lift .token).bind fun _ => hinner.expression.bind fun _ => (Agrees.lift (.typed _ _)).bind fun _ =>
    (Agrees.lift (.require _ _)).bind fun _ => .pure _

theorem agrees_ordering : Agrees n d (actions n).ordering inner.actions.ordering := by
  refine (agrees_separated (fun done => ?_) ?_).bind fun keys => (Agrees.lift (.require _ _)).bind fun _ => .pure _
  · exact hinner.expression.bind fun e => (Agrees.lift steady_direction).bind fun up => .pure _
  · intro scope done s key s' h
    simp only [Grammar.actions_lift, actions_expression, reads_bind, reads_pure] at h
    obtain ⟨e, u, he, up, v, hdirection, -, rfl⟩ := h
    exact Nat.lt_of_le_of_lt (direction_reads hdirection).2 (hinner.derived.expression he).2

end

/-- What is inside a phrase agrees at every depth: at the last one both readers fail. -/
theorem agreesInside_level (n : Nat) {d k : Nat} (h : d + k = maxDepth) : AgreesInside n d (level k) := by
  induction k generalizing n d with
  | zero =>
      have hlast : ∀ f : StackReader Expr, Agrees n d (StackReader.nested f) (fail .tooDeep) := by
        refine fun f => ⟨.fail _, fun scope m hdepth hm _ => ⟨m.deepest, hm, ?_⟩⟩
        rw [StackReader.nested, if_neg (by omega)]
        rfl
      cases n with
      | zero => exact ⟨.of_zero (.fail _), .of_zero (.fail _), level_derived 0⟩
      | succ n => exact ⟨hlast _, hlast _, level_derived 0⟩
  | succ k ih =>
      have hinner : ∀ n, AgreesInside n (d + 1) (level k) := fun n => ih n (by omega)
      have hconditional : ∀ n, Agrees n (d + 1) (actions n).conditional (conditional (level k)) :=
        fun n => actions_conditional (level k) ▸ agrees_conditional (hinner n)
      have hunary : ∀ n, Agrees n (d + 1) (actions n).unary (unary (level k)) :=
        fun n => actions_unary (level k) ▸ agrees_unary (hinner n)
      have hd : d < maxDepth := by omega
      cases n with
      | zero => exact ⟨.of_zero (hconditional 0).steady, .of_zero (hunary 0).steady, level_derived (k + 1)⟩
      | succ n => exact ⟨.nested hd (hconditional n), .nested hd (hunary n), level_derived (k + 1)⟩

/-! ### Stacks -/

/-- With enough calls a reader with stacks returns what the one of the grammar does. If it succeeds it has taken up a
token; in either case it leaves the stacks as they were, has given back no slot, and was never nested too deep. -/
def Restores (f : Actions StackReader → StackReader α) (p : Level → Parse α) : Prop :=
  ∀ (n : Nat) (scope : Scope) (m : Machine), m.depth ≤ maxDepth → m.deepest ≤ maxDepth → m.calls ≤ n →
    ∃ r m', f (actions n) scope m = some (r, m') ∧
      exec (p (level (maxDepth - m.depth))) (m.scope scope) m.reading = (r, m'.reading) ∧
      (∀ a, r = .ok a → m'.reading.left < m.reading.left) ∧
      m'.depth = m.depth ∧ m'.its = m.its ∧ m.reading.slots ≤ m'.reading.slots ∧ m'.deepest ≤ maxDepth

theorem restores_of_agrees {f : Actions StackReader → StackReader α} {p : Level → Parse α}
    (h : ∀ {n d inner}, AgreesInside n d inner → Agrees n d (f (actions n)) (p inner))
    (hleft : ∀ {inner scope s a s'}, inner.Derived → Reads (p inner) scope s a s' → s'.left < s.left) :
    Restores f p := by
  intro n scope m hdepth hm hcalls
  have hlevel : m.depth + (maxDepth - m.depth) = maxDepth := by omega
  obtain ⟨hsteady, hagrees⟩ := h (agreesInside_level n hlevel)
  obtain ⟨deepest, hdeepest, hrun⟩ := hagrees scope m rfl hm hcalls
  refine ⟨_, _, hrun, rfl, fun a ha => ?_, rfl, rfl, (hsteady _ _).1, hdeepest⟩
  exact hleft (level_derived _) (Prod.ext ha rfl)

/-- The same for a text that is read from the start. -/
def Enters (f : Actions StackReader → StackReader α) (p : Parse α) : Prop :=
  ∀ (n : Nat) (env : Environment) (params : List Param) (symbols : Symbols) (text : String) (shapes : Shapes),
    (Machine.start params text shapes).calls ≤ n →
    ∃ r m', (do (actions n).lift advance; f (actions n) : StackReader α)
        (env.scope params symbols) (.start params text shapes) = some (r, m') ∧
      exec (do advance; p) (env.scope params symbols) (Environment.start params text shapes) = (r, m'.reading) ∧
      m'.depth = 0 ∧ m'.its = (Environment.implicit? params).toList ∧ params.length ≤ m'.reading.slots ∧
      m'.deepest ≤ maxDepth

theorem enters_of_agrees {f : Actions StackReader → StackReader α} (h : ∀ n, Agrees n 0 (f (actions n)) p) :
    Enters f p := by
  intro n env params symbols text shapes hcalls
  have hscope : (Machine.start params text shapes).scope (env.scope params symbols) = env.scope params symbols := by
    rw [Machine.scope, Machine.start, Option.head?_toList]
    rfl
  obtain ⟨hsteady, hagrees⟩ := (Agrees.lift .advance).bind fun _ => h n
  obtain ⟨deepest, hdeepest, hrun⟩ :=
    hagrees (env.scope params symbols) (.start params text shapes) rfl (Nat.zero_le _) hcalls
  rw [hscope] at hrun
  exact ⟨_, _, hrun, rfl, rfl, rfl, (hsteady _ (Environment.start params text shapes)).1, hdeepest⟩

section

variable {inner : Level} {scope : Scope} {s s' : Reading} {e : Expr} (hinner : inner.Derived)

include hinner

theorem typeAccess_left {ty : Ty} (h : Reads (typeAccess inner ty) scope s e s') : s'.left < s.left := by
  simp only [typeAccess, reads_bind, reads_token, reads_at?] at h
  obtain ⟨_, _, ⟨rfl, rfl⟩, _, m, hadvance, form, u, hform, _, _, ⟨rfl, rfl⟩, h⟩ := h
  have hform := (typeForm_keeps hform).2.2
  have hadvance := (reads_advance hadvance).2.2.2.1
  have hrest : s'.left < u.left := by
    rcases reads_ite.mp h with ⟨_, hcall⟩ | ⟨_, hmember⟩
    · simp only [reads_bind, reads_typed] at hcall
      obtain ⟨args, v, hargs, -, rfl⟩ := hcall
      exact (argumentList_reads hinner hargs).2
    · obtain ⟨_, v, hdot, hmember⟩ := reads_bind.mp hmember
      exact Nat.lt_trans (member_reads hinner hmember).2 (expect_reads hdot (by decide)).2
  omega

theorem invocation_left {l : Lambda} (h : Reads (inner.actions.invocation l) scope s e s') : s'.left < s.left := by
  simp only [Actions.invocation, Grammar.actions_lift, actions_argumentList, reads_bind, reads_token, reads_typed] at h
  obtain ⟨_, _, ⟨rfl, rfl⟩, _, m, hadvance, args, u, hargs, -, rfl⟩ := h
  exact Nat.lt_of_lt_of_le (argumentList_reads hinner hargs).2 (reads_advance hadvance).2.2.2.1

end

/-- Every reader that calls itself returns, from every state whose depth is within the limit: with `Machine.calls`
nested calls and rounds, or any larger number of them, it has an answer, and this is the answer of the reader of the
grammar. A success takes up at least one token. Whether it succeeds or fails, the depth and the stack of implicit
parameters are as they were, no slot is given back, and the depth has stayed within the limit. Whole texts are read
from such a state, with no phrase open. -/
theorem readers_restore :
    Restores (·.expression) (·.expression) ∧ Restores (·.conditional) conditional ∧
    (∀ k : Fin 6, Restores (·.binary k) (reader · (6 - k))) ∧
    Restores (·.unary) unary ∧ Restores (·.primary) primary ∧
    (∀ receiver, Restores (·.member receiver) (member · receiver)) ∧
    (∀ e, Restores (·.element e) (element · e)) ∧
    Restores (·.arguments) arguments ∧ Restores (·.argumentList) argumentList ∧
    Restores (·.projection) projection ∧ Restores (·.conditionalCall) conditionalCall ∧
    (∀ l, Restores (·.invocation l) (·.actions.invocation l)) ∧
    (∀ ty, Restores (·.typeAccess ty) (typeAccess · ty)) ∧
    (∀ result, Enters (·.whole result) (whole result)) ∧ Enters (·.ordering) ordering := by
  have hagrees : ∀ n, AgreesInside n 0 (level maxDepth) := fun n => agreesInside_level n (Nat.zero_add _)
  refine ⟨?_, ?_, fun k => ?_, ?_, ?_, fun receiver => ?_, fun e => ?_, ?_, ?_, ?_, ?_, fun l => ?_, fun ty => ?_,
    fun result => ?_, ?_⟩
  · exact restores_of_agrees AgreesInside.expression fun hinner h => (hinner.expression h).2
  · exact restores_of_agrees (fun h => actions_conditional _ ▸ agrees_conditional h)
      fun hinner h => (conditional_derived hinner h).2
  · have hk : k.val ≤ 5 := Nat.le_of_lt_succ k.isLt
    exact restores_of_agrees (fun h => actions_binary _ hk ▸ agrees_binary h hk)
      fun hinner h => (reader_derived hinner _ h).2
  · exact restores_of_agrees (fun h => actions_unary _ ▸ agrees_unary h) fun hinner h => (unary_derived hinner h).2
  · exact restores_of_agrees (fun h => actions_primary _ ▸ agrees_primary h)
      fun hinner h => (primary_derived hinner h).2
  · exact restores_of_agrees (fun h => agrees_member h receiver) fun hinner h => (member_reads hinner h).2
  · exact restores_of_agrees (fun h => agrees_element h e) fun hinner h => (element_reads hinner h).2
  · exact restores_of_agrees agrees_arguments fun hinner h => (arguments_reads hinner h).2
  · exact restores_of_agrees agrees_argumentList fun hinner h => (argumentList_reads hinner h).2
  · exact restores_of_agrees agrees_projection fun hinner h => (projection_reads hinner h).2
  · exact restores_of_agrees agrees_conditionalCall fun hinner h => (conditionalCall_reads hinner h).2
  · exact restores_of_agrees (fun h => agrees_invocation h l) fun hinner h => invocation_left hinner h
  · exact restores_of_agrees (fun h => agrees_typeAccess h ty) fun hinner h => typeAccess_left hinner h
  · rw [← actions_whole]
    exact enters_of_agrees fun n => agrees_whole (hagrees n) result
  · rw [← actions_ordering]
    exact enters_of_agrees fun n => agrees_ordering (hagrees n)

end StackReader

end RowQuery
