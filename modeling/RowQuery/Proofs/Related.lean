import Mathlib.Data.List.Forall2
import RowQuery.Evaluation

/-!
Pairs of evaluations that go the same way. `Related` says that two computations, started in slots that a
relation ties together, both succeed with related results or both fail with the same error, and leave the
slots tied together. It passes through every way in which evaluation composes computations, up to the
operations on the items of a sequence, so a fact about evaluation needs only be proved for the leaves.
-/

namespace RowQuery

namespace Slots

theorem getElem?_bind_self (s : Slots) (n : Nat) (v : Value) : (s.bind n v)[n]? = some v := by
  rw [bind, List.getElem?_set_self]
  simp only [empty, List.length_append, List.length_replicate]
  omega

theorem getElem?_bind_ne {s : Slots} {m n : Nat} {v w : Value} (hne : m ≠ n) (h : s[m]? = some w) :
    (s.bind n v)[m]? = some w := by
  have hlt : m < s.length := (List.getElem?_eq_some_iff.mp h).1
  rw [bind, List.getElem?_set_ne (Ne.symm hne), List.getElem?_append_left hlt, h]

/-- Parameters in slots that follow one another hold their arguments, and slots before them what they
held. -/
theorem getElem?_foldl_bind {params : List Param} {args : List Value} {first : Nat}
    (hslots : params.map (·.slot) = List.range' first params.length)
    (hlength : args.length = params.length) (s : Slots) (m : Nat) :
    let after := (params.zip args).foldl (fun slots (p, v) => slots.bind p.slot v) s
    (m < first → ∀ v, s[m]? = some v → after[m]? = some v) ∧
      (m < args.length → after[first + m]? = args[m]?) := by
  induction params generalizing args first s m with
  | nil =>
      simp_all
  | cons p params ih =>
      rcases args with _ | ⟨v, args⟩
      · cases hlength
      · simp only [List.map_cons, List.length_cons, List.range'_succ, List.cons.injEq] at hslots hlength
        obtain ⟨hp, hslots⟩ := hslots
        have hrest := fun i => ih hslots (Nat.succ.inj hlength) (s.bind p.slot v) i
        simp only [List.zip_cons_cons, List.foldl_cons]
        constructor
        · intro hm w hw
          exact (hrest m).1 (by omega) w (getElem?_bind_ne (by omega) hw)
        · intro hm
          rcases m with _ | m
          · exact (hrest first).1 (by omega) v (by rw [hp, getElem?_bind_self])
          · have hstep := (hrest m).2 (by simpa using hm)
            rwa [Nat.add_assoc, Nat.add_comm 1 m] at hstep

/-- The slots of a call start with its arguments. -/
theorem getElem?_ofArguments {params : List Param} {args : List Value}
    (hslots : params.map (·.slot) = List.range params.length) (hlength : args.length = params.length)
    (n : Nat) {i : Nat} (hi : i < args.length) : (ofArguments n params args)[i]? = args[i]? := by
  rw [List.range_eq_range'] at hslots
  have h := (getElem?_foldl_bind hslots hlength (empty n) i).2 hi
  rwa [Nat.zero_add] at h

end Slots

namespace Eval

/-- What a computation does to slots. -/
def exec {α : Type} (p : Eval α) (s : Slots) : Except EvalError α × Slots := p.run s

/-- Outcomes of one kind: related results, or one failure of an admitted kind. -/
def Matches {α β : Type} (E : EvalError → Prop) (Q : α → β → Prop) :
    Except EvalError α → Except EvalError β → Prop
  | .ok a, .ok b => Q a b
  | .error e, .error f => e = f ∧ E e
  | _, _ => False

/-- Outcomes with the same results are the same. -/
theorem Matches.eq {α : Type} {E : EvalError → Prop} {x y : Except EvalError α} (h : Matches E Eq x y) : x = y := by
  cases x with
  | ok a =>
      cases y with
      | ok b => exact congrArg Except.ok h
      | error f => exact h.elim
  | error e =>
      cases y with
      | ok b => exact h.elim
      | error f => exact congrArg Except.error h.1

/-- Two computations that lead from related slots to related results and related slots. -/
def Related {α β : Type} (R : Slots → Slots → Prop) (E : EvalError → Prop) (p : Eval α) (q : Eval β)
    (Q : α → β → Prop) : Prop :=
  ∀ s t, R s t → Matches E Q (exec p s).1 (exec q t).1 ∧ R (exec p s).2 (exec q t).2

section

variable {α β γ δ : Type}

theorem exec_pure (a : α) (s : Slots) : exec (pure a) s = (.ok a, s) := rfl

theorem exec_get (s : Slots) : exec get s = (.ok s, s) := rfl

theorem exec_modify (f : Slots → Slots) (s : Slots) : exec (modify f) s = (.ok (), f s) := rfl

theorem exec_bind (p : Eval α) (f : α → Eval β) (s : Slots) :
    exec (p >>= f) s =
      match exec p s with
      | (.ok a, t) => exec (f a) t
      | (.error e, t) => (.error e, t) := by
  simp only [exec, bind, ExceptT.bind, ExceptT.mk, ExceptT.run, StateT.bind, ExceptT.bindCont]
  rcases p s with ⟨r, t⟩
  cases r <;> rfl

theorem exec_slot {n : Nat} {s : Slots} {v : Value} (h : s[n]? = some v) : exec (slot n) s = (.ok v, s) := by
  simp only [slot, exec_bind, exec_get, h]
  rfl

end

theorem exec_convert {cat : Catalog} {e : Expr} {s after : Slots} {v : Value} (target : Ty) (checked : Bool)
    (h : exec (cat.eval e) s = (.ok v, after)) :
    exec (cat.eval (.convert target checked e)) s = (cat.convert v e.ty target checked, after) := by
  rw [Catalog.eval, exec_bind, h]
  show exec (rule (cat.convert v e.ty target checked)) after = _
  cases cat.convert v e.ty target checked <;> rfl

/-- Where the value of one body follows from the value of another, it does so for all arguments. -/
theorem evalLambda_body {cat : Catalog} {l : Lambda} {body : Expr} {f : Value → Except EvalError Value}
    (h : ∀ s, (exec (cat.eval body) s).1 = (exec (cat.eval l.body) s).1 >>= f) (row : List Value) :
    cat.evalLambda { l with body := body } row = cat.evalLambda l row >>= f := by
  by_cases hrow : row.length = l.params.length
  · rw [Catalog.evalLambda, Catalog.evalLambda, if_pos hrow, if_pos hrow]
    exact h _
  · rw [Catalog.evalLambda, Catalog.evalLambda, if_neg hrow, if_neg hrow]
    rfl

namespace Related

variable {α β γ δ : Type} {R : Slots → Slots → Prop} {E : EvalError → Prop}
  {p : Eval α} {q : Eval β} {Q : α → β → Prop} {S : γ → δ → Prop}

theorem pure {a : α} {b : β} (h : Q a b) : Related R E (Pure.pure a) (Pure.pure b) Q :=
  fun _ _ hst => ⟨h, hst⟩

theorem throw {e : EvalError} (h : E e) :
    Related R E (MonadExcept.throw e : Eval α) (MonadExcept.throw e : Eval β) Q :=
  fun _ _ hst => ⟨⟨rfl, h⟩, hst⟩

theorem rule {x : Except EvalError α} {y : Except EvalError β} (h : Matches E Q x y) :
    Related R E (Eval.rule x) (Eval.rule y) Q := by
  cases x with
  | ok a =>
      cases y with
      | ok b => exact pure h
      | error f => exact h.elim
  | error e =>
      cases y with
      | ok b => exact h.elim
      | error f =>
          obtain ⟨rfl, he⟩ := h
          exact throw he

theorem bind {f : α → Eval γ} {g : β → Eval δ} (h : Related R E p q Q)
    (hfg : ∀ a b, Q a b → Related R E (f a) (g b) S) : Related R E (p >>= f) (q >>= g) S := by
  intro s t hst
  rw [exec_bind, exec_bind]
  obtain ⟨hmatch, hslots⟩ := h s t hst
  rcases hp : exec p s with ⟨x, s'⟩
  rcases hq : exec q t with ⟨y, t'⟩
  rw [hp, hq] at hmatch hslots
  cases x with
  | ok a =>
      cases y with
      | ok b => exact hfg a b hmatch s' t' hslots
      | error f => exact hmatch.elim
  | error e =>
      cases y with
      | ok b => exact hmatch.elim
      | error f => exact ⟨hmatch, hslots⟩

theorem mono {Q' : α → β → Prop} (h : Related R E p q Q) (hQ : ∀ a b, Q a b → Q' a b) :
    Related R E p q Q' := by
  intro s t hst
  obtain ⟨hmatch, hslots⟩ := h s t hst
  refine ⟨?_, hslots⟩
  revert hmatch
  rcases (exec p s).1 with e | a <;> rcases (exec q t).1 with f | b
  · exact id
  · exact id
  · exact id
  · exact hQ a b

/-! ### Repetition over items -/

variable {as : List α} {bs : List β}

theorem foldlM {f : γ → α → Eval γ} {g : δ → β → Eval δ}
    (h : ∀ x y a b, S x y → Q a b → Related R E (f x a) (g y b) S) (hab : List.Forall₂ Q as bs)
    {x : γ} {y : δ} (hxy : S x y) : Related R E (as.foldlM f x) (bs.foldlM g y) S := by
  induction hab generalizing x y with
  | nil => exact pure hxy
  | cons hhead _ ih =>
      rw [List.foldlM_cons, List.foldlM_cons]
      exact bind (h _ _ _ _ hxy hhead) fun _ _ hnext => ih hnext

theorem mapM {f : α → Eval γ} {g : β → Eval δ} (h : ∀ a b, Q a b → Related R E (f a) (g b) S)
    (hab : List.Forall₂ Q as bs) : Related R E (as.mapM f) (bs.mapM g) (List.Forall₂ S) := by
  induction hab with
  | nil => exact pure .nil
  | cons hhead _ ih =>
      rw [List.mapM_cons, List.mapM_cons]
      exact bind (h _ _ hhead) fun _ _ hfirst => bind ih fun _ _ hrest => pure (.cons hfirst hrest)

theorem anyM {f : α → Eval Bool} {g : β → Eval Bool}
    (h : ∀ a b, Q a b → Related R E (f a) (g b) Eq) (hab : List.Forall₂ Q as bs) :
    Related R E (as.anyM f) (bs.anyM g) Eq := by
  induction hab with
  | nil => exact pure rfl
  | cons hhead _ ih =>
      refine bind (h _ _ hhead) ?_
      rintro found _ rfl
      cases found with
      | true => exact pure rfl
      | false => exact ih

theorem allM {f : α → Eval Bool} {g : β → Eval Bool}
    (h : ∀ a b, Q a b → Related R E (f a) (g b) Eq) (hab : List.Forall₂ Q as bs) :
    Related R E (as.allM f) (bs.allM g) Eq := by
  induction hab with
  | nil => exact pure rfl
  | cons hhead _ ih =>
      refine bind (h _ _ hhead) ?_
      rintro found _ rfl
      cases found with
      | true => exact ih
      | false => exact pure rfl

theorem filterM {f : α → Eval Bool} {g : β → Eval Bool}
    (h : ∀ a b, Q a b → Related R E (f a) (g b) Eq) (hab : List.Forall₂ Q as bs) :
    Related R E (as.filterM f) (bs.filterM g) (List.Forall₂ Q) := by
  have haux : ∀ {xs : List α} {ys : List β}, List.Forall₂ Q xs ys →
      Related R E (List.filterAuxM f as xs) (List.filterAuxM g bs ys) (List.Forall₂ Q) := by
    induction hab with
    | nil => exact fun hxy => pure hxy
    | cons hhead _ ih =>
        intro xs ys hxy
        refine bind (h _ _ hhead) ?_
        rintro kept _ rfl
        cases kept with
        | true => exact ih (.cons hhead hxy)
        | false => exact ih hxy
  exact bind (haux .nil) fun _ _ hrev => pure (List.rel_reverse hrev)

end Related

end Eval

end RowQuery
