import RowQuery.Proofs.Related

/-!
Selectors with a state of their own. An operation on items calls its selector on one item after the other, and
a selector may keep any record of its calls. So what an operation leaves behind tells on which items it called
the selector. Sums and extremes go through the items in the same way: they gather the values that are present,
up to the first item at which the selector fails or the next value is refused.
-/

namespace RowQuery.Aggregate

/-- Computations that may fail and that change a state. -/
abbrev Selecting (σ : Type) := ExceptT EvalError (StateM σ)

namespace Selecting

variable {σ α β : Type}

/-- What a computation does to a state. -/
def exec (p : Selecting σ α) (s : σ) : Except EvalError α × σ := p.run s

@[simp]
theorem exec_pure (a : α) (s : σ) : exec (pure a) s = (.ok a, s) := rfl

@[simp]
theorem exec_rule (x : Except EvalError α) (s : σ) : exec (rule x) s = (x, s) := by
  cases x <;> rfl

theorem exec_bind_ok {p : Selecting σ α} {s t : σ} {a : α} (h : exec p s = (.ok a, t)) (f : α → Selecting σ β) :
    exec (p >>= f) s = exec (f a) t := by
  have hrun : p s = (.ok a, t) := h
  simp only [exec, bind, ExceptT.bind, ExceptT.mk, ExceptT.run, StateT.bind, ExceptT.bindCont, hrun]

theorem exec_bind_error {p : Selecting σ α} {s t : σ} {e : EvalError} (h : exec p s = (.error e, t))
    (f : α → Selecting σ β) : exec (p >>= f) s = (.error e, t) := by
  have hrun : p s = (.error e, t) := h
  simp only [exec, bind, ExceptT.bind, ExceptT.mk, ExceptT.run, StateT.bind, ExceptT.bindCont, hrun]
  rfl

/-- A computation succeeds where its first part does and then the rest. -/
theorem exec_bind_eq_ok {p : Selecting σ α} {f : α → Selecting σ β} {s t : σ} {b : β} :
    exec (p >>= f) s = (.ok b, t) ↔ ∃ a u, exec p s = (.ok a, u) ∧ exec (f a) u = (.ok b, t) := by
  constructor
  · intro h
    rcases hp : exec p s with ⟨e | a, u⟩
    · rw [exec_bind_error hp] at h
      cases h
    · rw [exec_bind_ok hp] at h
      exact ⟨a, u, rfl, h⟩
  · rintro ⟨a, u, hp, hf⟩
    rw [exec_bind_ok hp, hf]

end Selecting

open Selecting

variable {σ β : Type} {f : β → Value → Except EvalError β} {select : Value → Selecting σ Value}

/-- What is selected from the first item comes first, and the other selections start from what it leaves. -/
theorem exec_mapM_cons {item : Value} {items vs : List Value} {s t : σ} :
    exec ((item :: items).mapM select) s = (.ok vs, t) ↔
      ∃ v later u, exec (select item) s = (.ok v, u) ∧ exec (items.mapM select) u = (.ok later, t) ∧
        vs = v :: later := by
  rw [List.mapM_cons]
  simp only [exec_bind_eq_ok, exec_pure, Prod.mk.injEq, Except.ok.injEq]
  constructor
  · rintro ⟨v, u, hv, later, t, hlater, rfl, rfl⟩
    exact ⟨v, later, u, hv, hlater, rfl⟩
  · rintro ⟨v, later, u, hv, hlater, rfl⟩
    exact ⟨v, u, hv, later, t, hlater, rfl, rfl⟩

/-- The values that are present. -/
def present (vs : List Value) : List Value := vs.filter fun v => !v.isNull

/-- Goes on from what is gathered so far with the selected value of an item, if it is present. -/
def gather (f : β → Value → Except EvalError β) (select : Value → Selecting σ Value) (acc : β) (item : Value) :
    Selecting σ β := do
  let v ← select item
  if v.isNull then return acc else rule (f acc v)

theorem exec_gather {acc : β} {item v : Value} {s t : σ} (h : exec (select item) s = (.ok v, t)) :
    exec (gather f select acc item) s = ((present [v]).foldlM f acc, t) := by
  rw [gather, exec_bind_ok h]
  cases hv : v.isNull with
  | true => simp [present, hv]; rfl
  | false => simp [present, hv]

theorem present_cons (v : Value) (vs : List Value) : present (v :: vs) = present [v] ++ present vs := by
  rw [present, present, present, ← List.filter_append, List.singleton_append]

/-- Where every selection succeeds, a fold over the items is one over the values that are present. -/
theorem exec_foldlM_gather {items vs : List Value} {s t : σ} (hselect : exec (items.mapM select) s = (.ok vs, t))
    {acc r : β} (hfold : (present vs).foldlM f acc = .ok r) :
    exec (items.foldlM (gather f select) acc) s = (.ok r, t) := by
  induction items generalizing s acc vs with
  | nil =>
      cases hselect
      cases hfold
      rfl
  | cons item items ih =>
      obtain ⟨v, later, u, hv, hlater, rfl⟩ := exec_mapM_cons.mp hselect
      rw [present_cons, List.foldlM_append] at hfold
      rcases hstep : (present [v]).foldlM f acc with e | next
      · rw [hstep] at hfold
        cases hfold
      · rw [hstep] at hfold
        have hfirst : exec (gather f select acc item) s = (.ok next, u) := by rw [exec_gather hv, hstep]
        rw [List.foldlM_cons, exec_bind_ok hfirst, ih hlater hfold]

/-- A fold over items succeeds with the values that are present, or it ends at the first item at which the
selector fails or the next value is refused, and the selector is called on no item after it. -/
theorem exec_foldlM_gather_cases (f : β → Value → Except EvalError β) (select : Value → Selecting σ Value)
    (items : List Value) (s : σ) (acc : β) :
    (∃ vs t r, exec (items.mapM select) s = (.ok vs, t) ∧ (present vs).foldlM f acc = .ok r ∧
      exec (items.foldlM (gather f select) acc) s = (.ok r, t)) ∨
    ∃ before item after vs t r u e, items = before ++ item :: after ∧
      exec (before.mapM select) s = (.ok vs, t) ∧ (present vs).foldlM f acc = .ok r ∧
      (exec (select item) t = (.error e, u) ∨
        ∃ v, exec (select item) t = (.ok v, u) ∧ v.isNull = false ∧ f r v = .error e) ∧
      exec (items.foldlM (gather f select) acc) s = (.error e, u) := by
  induction items generalizing s acc with
  | nil => exact Or.inl ⟨[], s, acc, rfl, rfl, rfl⟩
  | cons item items ih =>
      rw [List.foldlM_cons]
      rcases hv : exec (select item) s with ⟨e | v, u⟩
      · have hfails : exec (gather f select acc item) s = (.error e, u) := exec_bind_error hv _
        exact Or.inr ⟨[], item, items, [], s, acc, u, e, rfl, rfl, rfl, Or.inl hv, exec_bind_error hfails _⟩
      rcases hstep : (present [v]).foldlM f acc with e | next
      · have hfails : exec (gather f select acc item) s = (.error e, u) := by rw [exec_gather hv, hstep]
        have hpresent : v.isNull = false ∧ f acc v = .error e := by
          cases hnull : v.isNull with
          | true => simp [present, hnull] at hstep; cases hstep
          | false => exact ⟨rfl, by simpa [present, hnull] using hstep⟩
        exact Or.inr ⟨[], item, items, [], s, acc, u, e, rfl, rfl, rfl, Or.inr ⟨v, hv, hpresent⟩,
          exec_bind_error hfails _⟩
      · have hfirst : exec (gather f select acc item) s = (.ok next, u) := by rw [exec_gather hv, hstep]
        have hfold : ∀ later, (present (v :: later)).foldlM f acc = (present later).foldlM f next := by
          intro later
          rw [present_cons, List.foldlM_append, hstep]
          rfl
        rw [exec_bind_ok hfirst]
        rcases ih u next with ⟨vs, t, r, hvs, hr, hok⟩ |
          ⟨before, bad, after, vs, t, r, w, e, rfl, hvs, hr, hcause, herror⟩
        · exact Or.inl ⟨v :: vs, t, r, exec_mapM_cons.mpr ⟨v, vs, u, hv, hvs, rfl⟩, by rw [hfold, hr], hok⟩
        · exact Or.inr ⟨item :: before, bad, after, v :: vs, t, r, w, e, rfl,
            exec_mapM_cons.mpr ⟨v, vs, u, hv, hvs, rfl⟩, by rw [hfold, hr], hcause, herror⟩

end RowQuery.Aggregate
