import RowQuery.Command.Run
import RowQuery.Proofs.Embedding

/-!
What the operations on a query come to for texts that compile: the evaluation of the compiled expression
for the rows. Neither the shapes that were made before nor the wording of reports has a say in it.
-/

namespace RowQuery

/-! ### Evaluation for each of many -/

section

variable {ε α β : Type}

/-- Whether a condition could be evaluated and holds. -/
def Query.holds : Except ε Bool → Bool
  | .ok b => b
  | .error _ => false

open Query (holds)

theorem mapM_eq_ok {f : α → Except ε β} {as : List α} {bs : List β} :
    as.mapM f = .ok bs ↔ List.Forall₂ (fun a b => f a = .ok b) as bs := by
  induction as generalizing bs with
  | nil =>
      rw [List.mapM_nil, List.forall₂_nil_left_iff]
      show Except.ok [] = Except.ok bs ↔ _
      simp [eq_comm]
  | cons a as ih =>
      rw [List.mapM_cons, Typing.bind_eq_ok, List.forall₂_cons_left_iff]
      constructor
      · rintro ⟨b, hb, h⟩
        obtain ⟨bs', hbs, heq⟩ := Typing.bind_eq_ok.mp h
        cases heq
        exact ⟨b, bs', hb, ih.mp hbs, rfl⟩
      · rintro ⟨b, bs', hb, hbs, rfl⟩
        exact ⟨b, hb, Typing.bind_eq_ok.mpr ⟨bs', ih.mpr hbs, rfl⟩⟩

theorem forall_of_mapM_eq_ok {f : α → Except ε β} {P : β → Prop} (hP : ∀ a b, f a = .ok b → P b) {as : List α}
    {bs : List β} (h : as.mapM f = .ok bs) : ∀ b ∈ bs, P b := by
  have hsteps := mapM_eq_ok.mp h
  clear h
  induction hsteps with
  | nil => simp
  | cons hb _ ih => exact List.forall_mem_cons.mpr ⟨hP _ _ hb, ih⟩

end

/-! ### Steps -/

theorem Shaping.exec_bind_eq_ok {ε α β : Type} {p : Shaping ε α} {f : α → Shaping ε β} {shapes made : Shapes}
    {b : β} : (p >>= f).exec shapes = (.ok b, made) ↔
      ∃ a between, p.exec shapes = (.ok a, between) ∧ (f a).exec between = (.ok b, made) := by
  rw [exec_bind]
  rcases p.exec shapes with ⟨e | a, between⟩
  · simp
  · constructor
    · intro h
      exact ⟨a, between, rfl, h⟩
    · rintro ⟨_, _, heq, h⟩
      cases heq
      exact h

namespace Query

variable {α : Type} {env : Environment} {q : Query} {text : String} {args : List Argument}

theorem exec_adapt (compiler : Shaping CompileError α) (shapes : Shapes) :
    Shaping.exec (ExceptT.adapt QueryError.compile compiler) shapes =
      ((compiler.exec shapes).1.mapError QueryError.compile, (compiler.exec shapes).2) := rfl

/-- A text that is not blank and compiles, whatever shapes were made before. -/
theorem exec_compiling {compiler : Shaping CompileError α} {a : α} (what : String)
    (hblank : Text.isBlankText text = false) (h : ∀ shapes, (compiler.exec shapes).1 = .ok a)
    (shapes : Shapes) : ∃ made, (compiling what text compiler).exec shapes = (.ok a, made) := by
  obtain ⟨made, hmade⟩ := Shaping.exec_fst_eq_ok.mp (h shapes)
  refine ⟨made, ?_⟩
  rw [compiling, if_neg (by simp [hblank]), exec_adapt, hmade]
  rfl

theorem exec_evaluated (r : Except EvalError α) (shapes : Shapes) :
    (evaluated r).exec shapes = (r.mapError .eval, shapes) := by
  cases r <;> rfl

/-- What comes of the rows of a query, as a step. -/
def outcome (q : Query) (r : Except EvalError (List Value)) : Except QueryError Query :=
  (r.map fun rows => { q with rows }).mapError .eval

/-- The rows are looked at after the text is compiled. -/
theorem exec_rows {compiler : Step α} {a : α} {shapes made : Shapes} (rows : α → Except EvalError (List Value))
    (h : compiler.exec shapes = (.ok a, made)) :
    Shaping.exec (do let a ← compiler; return { q with rows := ← evaluated (rows a) }) shapes =
      (q.outcome (rows a), made) := by
  rw [Shaping.exec_bind, h]
  simp only [Shaping.exec_bind, exec_evaluated]
  cases rows a <;> rfl

theorem exec_orderBy {keys : List SortKey} (h : env.CompilesOrdering q.element text args keys)
    (shapes : Shapes) :
    ((q.orderBy env text args).exec shapes).1 = q.outcome (sorted env.catalog keys q.rows) := by
  obtain ⟨made, hmade⟩ := exec_compiling "ordering" h.not_blank h.compileOrdering_eq_ok shapes
  have hrows := exec_rows (q := q) (fun keys => sorted env.catalog keys q.rows) hmade
  exact congrArg Prod.fst hrows

theorem compiling_eq_ok {compiler : Shaping CompileError α} {a : α} {what : String} {shapes made : Shapes}
    (h : (compiling what text compiler).exec shapes = (.ok a, made)) : compiler.exec shapes = (.ok a, made) := by
  rw [compiling] at h
  split at h
  · cases h
  · rw [exec_adapt] at h
    rcases hrun : compiler.exec shapes with ⟨e | b, between⟩ <;> rw [hrun] at h <;> cases h
    rfl

/-- A selection that succeeds has compiled its text and has a value for each row. -/
theorem select_eq_ok {q' : Query} {shapes : Shapes} (h : ((q.select env text args).exec shapes).1 = .ok q') :
    ∃ l, env.Compiles [⟨none, q.element⟩] none text args l ∧ q'.element = l.resultType ∧
      List.Forall₂ (fun row v => env.catalog.evalLambda l [row] = .ok v) q.rows q'.rows := by
  obtain ⟨made, h⟩ := Shaping.exec_fst_eq_ok.mp h
  obtain ⟨l, between, hcompiling, h⟩ := Shaping.exec_bind_eq_ok.mp h
  obtain ⟨rows, _, hrows, h⟩ := Shaping.exec_bind_eq_ok.mp h
  cases h
  refine ⟨l, ⟨shapes, congrArg Prod.fst (compiling_eq_ok hcompiling)⟩, rfl, mapM_eq_ok.mp ?_⟩
  rw [exec_evaluated] at hrows
  cases hmap : q.rows.mapM fun row => env.catalog.evalLambda l [row] with
  | error e =>
      rw [hmap] at hrows
      cases hrows
  | ok vs =>
      rw [hmap] at hrows
      cases hrows
      rfl

theorem exec_select {l : Lambda} {rows : List Value} (h : env.Compiles [⟨none, q.element⟩] none text args l)
    (hrows : List.Forall₂ (fun row v => env.catalog.evalLambda l [row] = .ok v) q.rows rows) (shapes : Shapes) :
    ((q.select env text args).exec shapes).1 = .ok ⟨l.resultType, rows⟩ := by
  obtain ⟨made, hmade⟩ := exec_compiling "selector" h.not_blank h.compile_eq_ok shapes
  have hevaluated := exec_evaluated (q.rows.mapM fun row => env.catalog.evalLambda l [row]) made
  rw [mapM_eq_ok.mpr hrows] at hevaluated
  refine Shaping.exec_fst_eq_ok.mpr ⟨made, Shaping.exec_bind_eq_ok.mpr ⟨l, made, hmade, ?_⟩⟩
  rw [mapM_eq_ok.mpr hrows]
  exact Shaping.exec_bind_eq_ok.mpr ⟨rows, made, hevaluated, rfl⟩

end Query

end RowQuery
