import Mathlib.Logic.Function.Basic
import RowQuery.Proofs.Related

/-!
The slots of an expression. An expression reads slots, and its aggregates bind some of them; what it reads
outside of the aggregates that bind it is free. Evaluation depends on the free slots only: it goes the same
way in any slots that agree on them, and also if all slots of the expression are renamed apart or if values
stand for some of them.
-/

namespace RowQuery

namespace Expr

mutual

/-- Slots gathered from an expression: what a parameter gives, and what an aggregate makes of its slot and
of the slots gathered from its source and its body. An invoked expression has slots of its own. -/
def gather (param : Nat → List Nat) (aggregate : Nat → List Nat → List Nat → List Nat) :
    Expr → List Nat
  | .literal .. | .constant .. => []
  | .param _ n => param n
  | .property _ _ this => gatherOption param aggregate this
  | .call _ _ this args => gatherOption param aggregate this ++ gatherAll param aggregate args
  | .aggregate _ _ n source body =>
    aggregate n (gather param aggregate source) (gatherOption param aggregate body)
  | .index _ list i => gather param aggregate list ++ gather param aggregate i
  | .unary _ _ e => gather param aggregate e
  | .binary _ _ l r => gather param aggregate l ++ gather param aggregate r
  | .conditional _ test yes no =>
    gather param aggregate test ++ (gather param aggregate yes ++ gather param aggregate no)
  | .convert _ _ e => gather param aggregate e
  | .new _ _ args => gatherAll param aggregate args
  | .init _ values => gatherAll param aggregate values
  | .invoke _ _ _ _ args => gatherAll param aggregate args

def gatherAll (param : Nat → List Nat) (aggregate : Nat → List Nat → List Nat → List Nat) :
    List Expr → List Nat
  | [] => []
  | e :: es => gather param aggregate e ++ gatherAll param aggregate es

def gatherOption (param : Nat → List Nat) (aggregate : Nat → List Nat → List Nat → List Nat) :
    Option Expr → List Nat
  | none => []
  | some e => gather param aggregate e

end

/-- The slots of the parameters in an expression. -/
def reads : Expr → List Nat := gather (fun n => [n]) fun _ source body => source ++ body

/-- The slots of the aggregates in an expression, each before those in its body. -/
def binders : Expr → List Nat := gather (fun _ => []) fun n source body => source ++ n :: body

/-- The slots that are read outside of the bodies of the aggregates that bind them. -/
def free : Expr → List Nat :=
  gather (fun n => [n]) fun n source body => source ++ body.filter (· ≠ n)

section

variable {param : Nat → List Nat} {aggregate : Nat → List Nat → List Nat → List Nat}

theorem gatherAll_eq (es : List Expr) :
    gatherAll param aggregate es = es.flatMap (gather param aggregate) := by
  induction es with
  | nil => rfl
  | cons e es ih => rw [gatherAll, ih, List.flatMap_cons]

theorem gatherOption_eq (o : Option Expr) :
    gatherOption param aggregate o = o.toList.flatMap (gather param aggregate) := by
  cases o with
  | none => rfl
  | some e => exact (List.append_nil _).symm

end

end Expr

/-! ### Substitution -/

/-- What stands for the parameters of an expression, and where the slots of its aggregates go. A parameter
becomes another one of its type, or a value that is taken to be of its type. -/
structure Substitution where
  param : Ty → Nat → Expr
  slot : Nat → Nat
  leaf : ∀ ty n, (∃ m, param ty n = .param ty m) ∨ ∃ v, param ty n = .constant ty v

/-- What holds of parameters and of values holds of what stands for a parameter. -/
theorem Substitution.of_leaf (σ : Substitution) {P : Expr → Prop} {ty : Ty} {n : Nat}
    (hparam : ∀ m, P (.param ty m)) (hconstant : ∀ v, P (.constant ty v)) : P (σ.param ty n) := by
  rcases σ.leaf ty n with ⟨m, hm⟩ | ⟨v, hv⟩
  · rw [hm]
    exact hparam m
  · rw [hv]
    exact hconstant v

/-- All slots are renamed. -/
def Substitution.rename (f : Nat → Nat) : Substitution :=
  ⟨fun ty n => .param ty (f n), f, fun _ n => Or.inl ⟨f n, rfl⟩⟩

namespace Expr

mutual

/-- An expression with other expressions for its parameters and other slots for its aggregates. -/
def substitute (σ : Substitution) : Expr → Expr
  | .literal ty v text => .literal ty v text
  | .constant ty v => .constant ty v
  | .param ty n => σ.param ty n
  | .property ty p this => .property ty p (substituteOption σ this)
  | .call ty m this args => .call ty m (substituteOption σ this) (substituteAll σ args)
  | .aggregate ty op n source body =>
    .aggregate ty op (σ.slot n) (substitute σ source) (substituteOption σ body)
  | .index ty list i => .index ty (substitute σ list) (substitute σ i)
  | .unary ty op e => .unary ty op (substitute σ e)
  | .binary ty op l r => .binary ty op (substitute σ l) (substitute σ r)
  | .conditional ty test yes no =>
    .conditional ty (substitute σ test) (substitute σ yes) (substitute σ no)
  | .convert ty checked e => .convert ty checked (substitute σ e)
  | .new ty ctor args => .new ty ctor (substituteAll σ args)
  | .init c values => .init c (substituteAll σ values)
  | .invoke ty params n body args => .invoke ty params n body (substituteAll σ args)

def substituteAll (σ : Substitution) : List Expr → List Expr
  | [] => []
  | e :: es => substitute σ e :: substituteAll σ es

def substituteOption (σ : Substitution) : Option Expr → Option Expr
  | none => none
  | some e => some (substitute σ e)

end

/-- An expression with its slots renamed. -/
abbrev mapSlots (f : Nat → Nat) : Expr → Expr := substitute (.rename f)

variable {σ : Substitution}

@[simp]
theorem ty_substitute (e : Expr) : (e.substitute σ).ty = e.ty := by
  cases e with
  | param ty n => exact σ.of_leaf (P := fun e => e.ty = ty) (fun _ => rfl) fun _ => rfl
  | _ => rfl

theorem substituteAll_eq (es : List Expr) : substituteAll σ es = es.map (substitute σ) := by
  induction es with
  | nil => rfl
  | cons e es ih => rw [substituteAll, ih, List.map_cons]

theorem substituteOption_eq (o : Option Expr) : substituteOption σ o = o.map (substitute σ) := by
  cases o <;> rfl

mutual

theorem substitute_rename_id : ∀ e : Expr, e.substitute (.rename id) = e
  | .literal .. | .constant .. | .param .. => rfl
  | .property _ _ this => by rw [substitute, substituteOption_rename_id this]
  | .call _ _ this args => by rw [substitute, substituteOption_rename_id this, substituteAll_rename_id args]
  | .aggregate _ _ _ source body => by
      rw [substitute, substitute_rename_id source, substituteOption_rename_id body]
      rfl
  | .index _ list i => by rw [substitute, substitute_rename_id list, substitute_rename_id i]
  | .unary _ _ e => by rw [substitute, substitute_rename_id e]
  | .binary _ _ l r => by rw [substitute, substitute_rename_id l, substitute_rename_id r]
  | .conditional _ test yes no => by
      rw [substitute, substitute_rename_id test, substitute_rename_id yes, substitute_rename_id no]
  | .convert _ _ e => by rw [substitute, substitute_rename_id e]
  | .new _ _ args => by rw [substitute, substituteAll_rename_id args]
  | .init _ values => by rw [substitute, substituteAll_rename_id values]
  | .invoke _ _ _ _ args => by rw [substitute, substituteAll_rename_id args]

theorem substituteAll_rename_id : ∀ es : List Expr, substituteAll (.rename id) es = es
  | [] => rfl
  | e :: es => by rw [substituteAll, substitute_rename_id e, substituteAll_rename_id es]

theorem substituteOption_rename_id : ∀ o : Option Expr, substituteOption (.rename id) o = o
  | none => rfl
  | some e => by rw [substituteOption, substitute_rename_id e]

end

theorem mapSlots_id (e : Expr) : e.mapSlots id = e := substitute_rename_id e

end Expr

/-! ### Evaluation in slots that agree -/

/-- Slots in which every slot of interest has a value, the same as under its new name. -/
def Slots.Agree (f : Nat → Nat) (V : Nat → Prop) (s t : Slots) : Prop :=
  ∀ n, V n → ∃ v, s[n]? = some v ∧ t[f n]? = some v

theorem Slots.Agree.bind {f : Nat → Nat} (hf : Function.Injective f) {V : Nat → Prop} {s t : Slots}
    (h : s.Agree f V t) (n : Nat) (v : Value) :
    (s.bind n v).Agree f (fun m => V m ∨ m = n) (t.bind (f n) v) := by
  intro m hm
  by_cases hmn : m = n
  · rw [hmn]
    exact ⟨v, getElem?_bind_self s n v, getElem?_bind_self t (f n) v⟩
  · obtain ⟨w, hs, ht⟩ := h m (hm.resolve_right hmn)
    exact ⟨w, getElem?_bind_ne hmn hs, getElem?_bind_ne (fun heq => hmn (hf heq)) ht⟩

/-- Two computations that go the same way from related slots. -/
def Eval.Alike {α : Type} (R : Slots → Slots → Prop) (p q : Eval α) : Prop :=
  Related R (fun _ => True) p q Eq

namespace Eval.Alike

variable {α β : Type} {R : Slots → Slots → Prop} {p q : Eval α}

theorem pure (a : α) : Alike R (Pure.pure a) (Pure.pure a) := Related.pure rfl

theorem rule (r : Except EvalError α) : Alike R (Eval.rule r) (Eval.rule r) := by
  refine Related.rule ?_
  cases r with
  | ok a => exact rfl
  | error e => exact ⟨rfl, trivial⟩

theorem bind {f g : α → Eval β} (h : Alike R p q) (hfg : ∀ a, Alike R (f a) (g a)) :
    Alike R (p >>= f) (q >>= g) := by
  refine Related.bind h ?_
  rintro a _ rfl
  exact hfg a

variable {as : List α}

theorem foldlM {f g : β → α → Eval β} (h : ∀ x a, Alike R (f x a) (g x a)) (x : β) :
    Alike R (as.foldlM f x) (as.foldlM g x) := by
  refine Related.foldlM (Q := Eq) ?_ (List.forall₂_refl as) rfl
  rintro x _ a _ rfl rfl
  exact h x a

theorem mapM {f g : α → Eval β} (h : ∀ a, Alike R (f a) (g a)) : Alike R (as.mapM f) (as.mapM g) := by
  refine Related.mono (Related.mapM (Q := Eq) (S := Eq) ?_ (List.forall₂_refl as)) fun _ _ => ?_
  · rintro a _ rfl
    exact h a
  · rw [List.forall₂_eq_eq_eq]
    exact id

variable {f g : α → Eval Bool} (h : ∀ a, Alike R (f a) (g a))

include h

theorem filterM : Alike R (as.filterM f) (as.filterM g) := by
  refine Related.mono (Related.filterM (Q := Eq) ?_ (List.forall₂_refl as)) fun _ _ => ?_
  · rintro a _ rfl
    exact h a
  · rw [List.forall₂_eq_eq_eq]
    exact id

theorem anyM : Alike R (as.anyM f) (as.anyM g) := by
  refine Related.anyM (Q := Eq) ?_ (List.forall₂_refl as)
  rintro a _ rfl
  exact h a

theorem allM : Alike R (as.allM f) (as.allM g) := by
  refine Related.allM (Q := Eq) ?_ (List.forall₂_refl as)
  rintro a _ rfl
  exact h a

end Eval.Alike

/-- An operation on items goes the same way with selectors that do. -/
theorem Aggregate.alike_apply {R : Slots → Slots → Prop} {select select' : Value → Eval Value}
    (h : ∀ v, Eval.Alike R (select v) (select' v)) (op : AggregateOp) (items : List Value)
    (body : Option Ty) (result : Ty) :
    Eval.Alike R (apply op items body result select) (apply op items body result select') := by
  have hholds : ∀ v, Eval.Alike R (holds op select v) (holds op select' v) := fun v =>
    (h v).bind fun w => .rule _
  have hstep : ∀ {β : Type} (next : β → Value → Except EvalError β) (x : β) (v : Value),
      Eval.Alike R (do let w ← select v; if w.isNull then return x else rule (next x w))
        (do let w ← select' v; if w.isNull then return x else rule (next x w)) := by
    intro β next x v
    refine (h v).bind fun w => ?_
    split
    · exact .pure x
    · exact .rule _
  cases op with
  | filter => exact (Eval.Alike.filterM hholds).bind fun kept => .pure _
  | any =>
      cases body with
      | none => exact .pure _
      | some t => exact (Eval.Alike.anyM hholds).bind fun found => .pure _
  | all => exact (Eval.Alike.allM hholds).bind fun found => .pure _
  | count =>
      cases body with
      | none => exact .rule _
      | some t => exact (Eval.Alike.filterM hholds).bind fun kept => .rule _
  | min | max =>
      refine (Eval.Alike.foldlM (hstep (better _)) none).bind fun best => ?_
      cases best with
      | some v => exact .pure v
      | none => exact .rule _
  | sum => exact Eval.Alike.foldlM (hstep addTerm) _
  | average =>
      refine (Eval.Alike.mapM h).bind fun values => ?_
      simp only
      split
      · exact .rule _
      · exact .rule _

/-- A relation between slots for each set of slots of interest, under which evaluation goes the same way on
both sides: what is read is what stands for it gives, and the slots that may be bound are bound in both. -/
structure Slots.Tied (cat : Catalog) (σ : Substitution) (B : Nat → Prop)
    (R : (Nat → Prop) → Slots → Slots → Prop) : Prop where
  param {V : Nat → Prop} {n : Nat} (hn : V n) (ty : Ty) :
    Eval.Alike (R V) (Eval.slot n) (cat.eval (σ.param ty n))
  bind {V : Nat → Prop} {n : Nat} {s t : Slots} (hn : B n) (h : R V s t) (v : Value) :
    R (fun m => V m ∨ m = n) (s.bind n v) (t.bind (σ.slot n) v)
  weaken {V : Nat → Prop} {n : Nat} {s t : Slots} (h : R (fun m => V m ∨ m = n) s t) : R V s t

namespace Slots

variable {cat : Catalog} {σ : Substitution} {f : Nat → Nat} {B V : Nat → Prop} {n : Nat}

/-- Slots that agree give the same value under the new name. -/
theorem Agree.slot {s t : Slots} (h : s.Agree f V t) (hn : V n) :
    ∃ v, Eval.exec (Eval.slot n) s = (.ok v, s) ∧ Eval.exec (Eval.slot (f n)) t = (.ok v, t) := by
  obtain ⟨v, hs, ht⟩ := h n hn
  exact ⟨v, Eval.exec_slot hs, Eval.exec_slot ht⟩

theorem tied_agree (hf : Function.Injective f) : Tied cat (.rename f) (fun _ => True) (Agree f) where
  param hn ty s t hst := by
    obtain ⟨v, hs, ht⟩ := hst.slot hn
    rw [Substitution.rename, Catalog.eval, hs, ht]
    exact ⟨rfl, hst⟩
  bind _ h v := h.bind hf _ v
  weaken h m hm := h m (Or.inl hm)

/-- Slots that start with given values. -/
def StartWith (s : Slots) (row : List Value) : Prop := ∀ i, i < row.length → s[i]? = row[i]?

/-- The first slots stay as they are if none of them is bound. -/
theorem StartWith.bind {s : Slots} {row : List Value} (h : s.StartWith row) (hn : row.length ≤ n) (v : Value) :
    (s.bind n v).StartWith row := by
  intro i hi
  have hrow : row[i]? = some row[i] := List.getElem?_eq_getElem hi
  rw [hrow]
  exact getElem?_bind_ne (by omega) ((h i hi).trans hrow)

/-- Slots that agree, of which the second ones start with given values. -/
theorem tied_startWith (hf : Function.Injective f) (row : List Value) :
    Tied cat (.rename f) (fun n => row.length ≤ f n) fun V s t => s.Agree f V t ∧ t.StartWith row where
  param hn ty s t hst := by
    obtain ⟨v, hs, ht⟩ := hst.1.slot hn
    rw [Substitution.rename, Catalog.eval, hs, ht]
    exact ⟨rfl, hst⟩
  bind hn h v := ⟨h.1.bind hf _ v, h.2.bind hn v⟩
  weaken h := ⟨fun m hm => h.1 m (Or.inl hm), h.2⟩

/-- A slot that both sides bind to one value may be read by what follows. -/
theorem Tied.binding {R : (Nat → Prop) → Slots → Slots → Prop} (h : Tied cat σ B R) (hn : B n)
    {p q : Eval Value} {v : Value} (hpq : Eval.Alike (R fun m => V m ∨ m = n) p q) :
    Eval.Alike (R V) (do modify (·.bind n v); p) (do modify (·.bind (σ.slot n) v); q) := by
  intro s t hst
  rw [Eval.exec_bind, Eval.exec_bind, Eval.exec_modify, Eval.exec_modify]
  obtain ⟨hmatch, hafter⟩ := hpq _ _ (h.bind hn hst v)
  exact ⟨hmatch, h.weaken hafter⟩

end Slots

namespace Catalog

open Eval

section

variable {σ : Substitution} {B : Nat → Prop} {R : (Nat → Prop) → Slots → Slots → Prop}

mutual

/-- Evaluation goes the same way in tied slots that include the free ones, with what stands for its parameters. -/
theorem tied_eval (cat : Catalog) (h : Slots.Tied cat σ B R) :
    ∀ (e : Expr) {V : Nat → Prop}, (∀ n ∈ e.free, V n) → (∀ n ∈ e.binders, B n) →
      Alike (R V) (cat.eval e) (cat.eval (e.substitute σ))
  | .literal _ v _, _, _, _ | .constant _ v, _, _, _ => .pure v
  | .param ty n, _, hfree, _ => h.param (hfree n List.mem_cons_self) ty
  | .property _ p this, _, hfree, hbinders => by
      rw [Expr.substitute, eval, eval]
      exact (tied_evalReceiver cat h p.name this hfree hbinders).bind fun v => .rule _
  | .call _ m this args, _, hfree, hbinders => by
      simp only [Expr.free, Expr.binders, Expr.gather, List.forall_mem_append] at hfree hbinders
      rw [Expr.substitute, eval, eval]
      refine (tied_evalReceiver cat h m.name this hfree.1 hbinders.1).bind fun v => ?_
      exact (tied_evalAll cat h args hfree.2 hbinders.2).bind fun vs => .rule _
  | .aggregate _ op n source none, _, hfree, hbinders => by
      simp only [Expr.free, Expr.binders, Expr.gather, Expr.gatherOption, List.forall_mem_append] at hfree hbinders
      rw [Expr.substitute, Expr.substituteOption, eval, eval]
      refine (tied_eval cat h source hfree.1 hbinders.1).bind fun v => ?_
      exact (Alike.rule _).bind fun items => Aggregate.alike_apply (fun w => .pure w) op items _ _
  | .aggregate _ op n source (some body), V, hfree, hbinders => by
      simp only [Expr.free, Expr.binders, Expr.gather, Expr.gatherOption, List.forall_mem_append,
        List.forall_mem_cons, List.mem_filter, decide_eq_true_eq] at hfree hbinders
      rw [Expr.substitute, Expr.substituteOption, eval, eval, Expr.ty_substitute]
      refine (tied_eval cat h source hfree.1 hbinders.1).bind fun v => ?_
      refine (Alike.rule _).bind fun items => Aggregate.alike_apply (fun w => ?_) op items _ _
      refine h.binding hbinders.2.1 (tied_eval cat h body (fun m hm => ?_) hbinders.2.2)
      by_cases hmn : m = n
      · exact Or.inr hmn
      · exact Or.inl (hfree.2 m ⟨hm, hmn⟩)
  | .index _ list i, _, hfree, hbinders => by
      simp only [Expr.free, Expr.binders, Expr.gather, List.forall_mem_append] at hfree hbinders
      rw [Expr.substitute, eval, eval]
      refine (tied_eval cat h list hfree.1 hbinders.1).bind fun v => ?_
      exact (tied_eval cat h i hfree.2 hbinders.2).bind fun w => .rule _
  | .unary _ op e, _, hfree, hbinders => by
      cases op <;>
      · rw [Expr.substitute, eval, eval]
        exact (tied_eval cat h e hfree hbinders).bind fun v => .rule _
  | .binary _ op l r, _, hfree, hbinders => by
      simp only [Expr.free, Expr.binders, Expr.gather, List.forall_mem_append] at hfree hbinders
      rw [Expr.substitute, eval, eval]
      refine (tied_eval cat h l hfree.1 hbinders.1).bind fun a => ?_
      split
      · split
        · exact .pure _
        · exact (tied_eval cat h r hfree.2 hbinders.2).bind fun b => .pure _
      · exact (tied_eval cat h r hfree.2 hbinders.2).bind fun b => .rule _
  | .conditional _ test yes no, _, hfree, hbinders => by
      simp only [Expr.free, Expr.binders, Expr.gather, List.forall_mem_append] at hfree hbinders
      rw [Expr.substitute, eval, eval]
      refine (tied_eval cat h test hfree.1 hbinders.1).bind fun v => (Alike.rule _).bind fun holds => ?_
      split
      · exact tied_eval cat h yes hfree.2.1 hbinders.2.1
      · exact tied_eval cat h no hfree.2.2 hbinders.2.2
  | .convert ty checked e, _, hfree, hbinders => by
      rw [Expr.substitute, eval, eval, Expr.ty_substitute]
      exact (tied_eval cat h e hfree hbinders).bind fun v => .rule _
  | .new _ _ args, _, hfree, hbinders => by
      rw [Expr.substitute, eval, eval]
      exact (tied_evalAll cat h args hfree hbinders).bind fun vs => .rule _
  | .init _ values, _, hfree, hbinders => by
      rw [Expr.substitute, eval, eval]
      exact (tied_evalAll cat h values hfree hbinders).bind fun vs => .pure _
  | .invoke _ params _ _ args, _, hfree, hbinders => by
      rw [Expr.substitute, eval, eval]
      refine (tied_evalAll cat h args hfree hbinders).bind fun vs => ?_
      split
      · exact .rule _
      · exact Related.throw trivial

theorem tied_evalAll (cat : Catalog) (h : Slots.Tied cat σ B R) :
    ∀ (es : List Expr) {V : Nat → Prop},
      (∀ n ∈ Expr.gatherAll (fun n => [n]) (fun n source body => source ++ body.filter (· ≠ n)) es, V n) →
      (∀ n ∈ Expr.gatherAll (fun _ => []) (fun n source body => source ++ n :: body) es, B n) →
      Alike (R V) (cat.evalAll es) (cat.evalAll (Expr.substituteAll σ es))
  | [], _, _, _ => .pure []
  | e :: es, _, hfree, hbinders => by
      simp only [Expr.gatherAll, List.forall_mem_append] at hfree hbinders
      rw [Expr.substituteAll, evalAll, evalAll]
      refine (tied_eval cat h e hfree.1 hbinders.1).bind fun v => ?_
      exact (tied_evalAll cat h es hfree.2 hbinders.2).bind fun vs => .pure _

theorem tied_evalReceiver (cat : Catalog) (h : Slots.Tied cat σ B R) (member : String) :
    ∀ (this : Option Expr) {V : Nat → Prop},
      (∀ n ∈ Expr.gatherOption (fun n => [n]) (fun n source body => source ++ body.filter (· ≠ n)) this,
        V n) →
      (∀ n ∈ Expr.gatherOption (fun _ => []) (fun n source body => source ++ n :: body) this, B n) →
      Alike (R V) (cat.evalReceiver member this) (cat.evalReceiver member (Expr.substituteOption σ this))
  | none, _, _, _ => .pure none
  | some e, _, hfree, hbinders => by
      rw [Expr.substituteOption, evalReceiver, evalReceiver, Expr.ty_substitute]
      exact (tied_eval cat h e hfree hbinders).bind fun v => (Alike.rule _).bind fun w => .pure _

end

end

/-- Evaluation depends on the free slots only, and not on the names of slots. -/
theorem alike_eval (cat : Catalog) {f : Nat → Nat} (hf : Function.Injective f) (e : Expr) {V : Nat → Prop}
    (hfree : ∀ n ∈ e.free, V n) : Alike (Slots.Agree f V) (cat.eval e) (cat.eval (e.mapSlots f)) :=
  tied_eval cat (Slots.tied_agree hf) e hfree fun _ _ => trivial

end Catalog

end RowQuery
