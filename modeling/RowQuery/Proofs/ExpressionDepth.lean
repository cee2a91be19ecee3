import RowQuery.Proofs.OperandForms

/-!
The weights of paths down expressions. A step goes along a chain if it takes the left operand of an operator, the
receiver of a member, or what is converted for one; any other step goes into a nested phrase. With one weight for each
kind of step, the same recursion gives the height of an expression and how deep its phrases are nested. A typing rule
continues some of its parts and holds the others as nested phrases, and puts no more than three links above a part.
-/

namespace RowQuery

/-- Whether a method stands for an operator on strings, its first argument being the left operand. -/
def Method.isOperator (m : Method) : Bool :=
  match m.body with
  | .builtin .stringConcat | .builtin .stringCompare => true
  | _ => false

namespace Expr

mutual

/-- The weight of the heaviest path down an expression, where steps along chains weigh `link` and steps into nested
phrases weigh `step`. -/
def depth (link step : Nat) : Expr → Nat
  | .literal .. | .constant .. | .param .. => 0
  | .property _ _ this => depthOption link step link this
  | .call _ m this args =>
    max (depthOption link step link this) (depthAll link step (if m.isOperator then link else step) args)
  | .aggregate _ _ _ source body => max (link + depth link step source) (depthOption link step step body)
  | .index _ list i => max (link + depth link step list) (step + depth link step i)
  | .unary _ _ e => step + depth link step e
  | .binary _ _ l r => max (link + depth link step l) (step + depth link step r)
  | .conditional _ test yes no =>
    max (step + depth link step test) (max (step + depth link step yes) (step + depth link step no))
  | .convert _ _ e => link + depth link step e
  | .new _ _ args => depthAll link step step args
  | .init _ values => depthAll link step step values
  | .invoke _ _ _ body args => max (step + depth link step body) (depthAll link step step args)

/-- The same for expressions of which a step into the first weighs `first`. -/
def depthAll (link step first : Nat) : List Expr → Nat
  | [] => 0
  | e :: es => max (first + depth link step e) (depthAll link step step es)

def depthOption (link step weight : Nat) : Option Expr → Nat
  | none => 0
  | some e => weight + depth link step e

end

section

variable {link step first weight n : Nat} {t : Ty} {e l r test : Expr} {es : List Expr} {this body : Option Expr}

theorem depth_call {m : Method} : (call t m this es).depth link step =
    max (depthOption link step link this) (depthAll link step (if m.isOperator then link else step) es) := rfl

theorem depth_aggregate {op : AggregateOp} : (aggregate t op n e body).depth link step =
    max (link + e.depth link step) (depthOption link step step body) := rfl

theorem depth_index : (index t l r).depth link step = max (link + l.depth link step) (step + r.depth link step) := rfl

theorem depth_unary {op : UnaryOp} : (unary t op e).depth link step = step + e.depth link step := rfl

theorem depth_binary {op : BinaryOp} :
    (binary t op l r).depth link step = max (link + l.depth link step) (step + r.depth link step) := rfl

theorem depth_conditional : (conditional t test l r).depth link step =
    max (step + test.depth link step) (max (step + l.depth link step) (step + r.depth link step)) := rfl

theorem depthAll_cons :
    depthAll link step first (e :: es) = max (first + e.depth link step) (depthAll link step step es) := rfl

theorem depthOption_some : depthOption link step weight (some e) = weight + e.depth link step := rfl

end

/-- The number of expressions on the longest path down an expression. -/
def height (e : Expr) : Nat := e.depth 1 1 + 1

/-- How often a path down an expression goes into a nested phrase. -/
def nesting (e : Expr) : Nat := e.depth 0 1

/-- An expression that is a single node. -/
def Single (e : Expr) : Prop := ∀ link step, e.depth link step = 0

theorem depthAll_le {link step first bound : Nat} {es : List Expr} (hfirst : first ≤ step)
    (h : ∀ e ∈ es, step + e.depth link step ≤ bound) : depthAll link step first es ≤ bound := by
  induction es generalizing first with
  | nil => exact Nat.zero_le _
  | cons e es ih =>
      obtain ⟨he, hes⟩ := List.forall_mem_cons.mp h
      rw [depthAll_cons, Nat.max_le]
      exact ⟨Nat.le_trans (Nat.add_le_add_right hfirst _) he, ih (Nat.le_refl _) hes⟩

end Expr

/-! ### Typing rules -/

variable {cat : Catalog} {e e' l r l' r' : Expr} {symbol : String}

theorem Taken.depth_le (h : Taken e e') (link step : Nat) : e'.depth link step ≤ e.depth link step := by
  cases h with
  | same => exact Nat.le_refl _
  | value _ _ => exact Nat.zero_le _

theorem Adapted.depth_le (h : Adapted e e') (link step : Nat) : e'.depth link step ≤ link + e.depth link step := by
  cases h with
  | plain h =>
      calc e'.depth link step
        _ ≤ e.depth link step := h.depth_le link step
        _ ≤ link + e.depth link step := Nat.le_add_left _ _
  | converted h _ _ => exact Nat.add_le_add_left (h.depth_le link step) link

theorem PromotesAll.depth_le {link step bound : Nat} {es es' : List Expr} {ts : List Ty}
    (h : PromotesAll cat es ts es') (hes : ∀ e ∈ es, step + e.depth link step ≤ bound) :
    ∀ e ∈ es', step + e.depth link step ≤ link + bound := by
  induction h with
  | nil => simp
  | cons head _ ih =>
      obtain ⟨he, hes⟩ := List.forall_mem_cons.mp hes
      have hhead := head.adapted.depth_le link step
      exact List.forall_mem_cons.mpr ⟨by omega, ih hes⟩

/-- An expression that is made of others, of which it continues some and holds some as nested phrases, with no more
than three links between it and any of them. -/
def Made (continued nested : List Expr) (e : Expr) : Prop :=
  ∀ {link step bound : Nat}, link ≤ step → (∀ x ∈ continued, x.depth link step ≤ bound) →
    (∀ x ∈ nested, step + x.depth link step ≤ bound) → e.depth link step ≤ 3 * link + bound

namespace Typing

theorem made_binary {t : Ty} {op : BinaryOp} (h : Adapted l l' ∧ Adapted r r') :
    Made [l] [r] (.binary t op l' r') := by
  intro link step bound hle hcontinued hnested
  have hl := hcontinued l List.mem_cons_self
  have hr := hnested r List.mem_cons_self
  have hl' := h.1.depth_le link step
  have hr' := h.2.depth_le link step
  rw [Expr.depth_binary]
  omega

theorem made_arithmetic {signatures : List (List Ty)} {op : BinaryOp}
    (h : arithmetic cat signatures op symbol l r = .ok e) : Made [l] [r] e := by
  obtain ⟨l', r', hoperands, rfl⟩ := arithmetic_ok h
  exact made_binary (operands_adapted hoperands)

theorem made_logical {op : BinaryOp} (h : logical cat op symbol l r = .ok e) : Made [l] [r] e := by
  obtain ⟨l', r', hoperands, rfl⟩ := logical_ok h
  exact made_binary (operands_adapted hoperands)

theorem made_comparison {op : BinaryOp} (h : comparison cat op symbol l r = .ok e) : Made [l] [r] e := by
  obtain ⟨l', r', hcomparable, rfl | ⟨-, rfl⟩⟩ := comparison_ok h
  · exact made_binary (comparable_adapted hcomparable)
  · intro link step bound hle hcontinued hnested
    have hl := hcontinued l List.mem_cons_self
    have hr := hnested r List.mem_cons_self
    have hl' := (comparable_adapted hcomparable).1.depth_le link step
    have hr' := (comparable_adapted hcomparable).2.depth_le link step
    have horder : (Expr.call .int32 Predefined.compareStrings none [l', r']).depth link step =
        max 0 (max (link + l'.depth link step) (max (step + r'.depth link step) 0)) := rfl
    have hzero : (Expr.constant .int32 (.int32 0)).depth link step = 0 := rfl
    rw [Expr.depth_binary, horder, hzero]
    omega

theorem made_concatenation (l r : Expr) : Made [l] [r] (concatenation l r) := by
  intro link step bound hle hcontinued hnested
  have hl := hcontinued l List.mem_cons_self
  have hr := hnested r List.mem_cons_self
  have hdepth : (concatenation l r).depth link step =
      max 0 (max (link + l.depth link step) (max (step + r.depth link step) 0)) := rfl
  rw [hdepth]
  omega

theorem made_sum (h : sum cat symbol l r = .ok e) : Made [l] [r] e := by
  rcases sum_ok h with rfl | harithmetic
  · exact made_concatenation l r
  · exact made_arithmetic harithmetic

theorem made_unary {op : UnaryOp} (h : unary cat op symbol l = .ok e) : Made [] [l] e := by
  obtain ⟨_, l', -, hpromotes, rfl⟩ := unary_ok h
  intro link step bound hle _ hnested
  have hl := hnested l List.mem_cons_self
  have hl' := hpromotes.adapted.depth_le link step
  rw [Expr.depth_unary]
  omega

theorem made_conditional {test : Expr} (h : conditional cat test l r = .ok e) : Made [] [test, l, r] e := by
  obtain ⟨-, l', r', hunified, rfl⟩ := conditional_ok h
  intro link step bound hle _ hnested
  obtain ⟨htest, hl, hr⟩ : step + test.depth link step ≤ bound ∧ step + l.depth link step ≤ bound ∧
      step + r.depth link step ≤ bound := by simpa using hnested
  have hl' := hunified.adapted.1.depth_le link step
  have hr' := hunified.adapted.2.depth_le link step
  rw [Expr.depth_conditional]
  omega

/-- Arguments of a call are nested, apart from the first one of an operator on strings. -/
theorem depthAll_promoted_le {link step first bound : Nat} {es es' : List Expr} {ts : List Ty}
    (h : PromotesAll cat es ts es') (hfirst : first ≤ step) (hes : ∀ e ∈ es, step + e.depth link step ≤ bound) :
    Expr.depthAll link step first es' ≤ 3 * link + bound := by
  calc Expr.depthAll link step first es'
    _ ≤ link + bound := Expr.depthAll_le hfirst (h.depth_le hes)
    _ ≤ 3 * link + bound := by omega

theorem made_construction {ty : Ty} {args : List Expr} (h : construction cat ty args = .ok e) : Made [] args e := by
  intro link step bound hle _ hnested
  rcases construction_ok h with ⟨ctor, -, promoted, hpromotes, rfl⟩ | ⟨operand, rfl, hconversion⟩
  · exact depthAll_promoted_le hpromotes (Nat.le_refl _) hnested
  · have hoperand := hnested operand List.mem_cons_self
    have hconverted := (conversion_adapted hconversion).depth_le link step
    omega

theorem depthOption_le {link step bound : Nat} {o : Option Expr} (h : ∀ x ∈ o.toList, x.depth link step ≤ bound) :
    Expr.depthOption link step link o ≤ 3 * link + bound := by
  cases o with
  | none => exact Nat.zero_le _
  | some x =>
      have hx := h x List.mem_cons_self
      rw [Expr.depthOption_some]
      omega

theorem made_property {receiver : Receiver} {name : String} (h : property cat receiver name = .ok e) :
    Made receiver.expr?.toList [] e := by
  intro link step bound _ hcontinued _
  obtain ⟨p, -, rfl⟩ := property_ok h
  exact depthOption_le hcontinued

theorem made_call {ty : Ty} {m : Method} (this : Option Expr) {args promoted : List Expr} {ts : List Ty}
    (h : PromotesAll cat args ts promoted) : Made this.toList args (.call ty m this promoted) := by
  intro link step bound hle hcontinued hnested
  have hfirst : (if m.isOperator then link else step) ≤ step := by split <;> omega
  rw [Expr.depth_call, Nat.max_le]
  exact ⟨depthOption_le hcontinued, depthAll_promoted_le h hfirst hnested⟩

theorem made_methodCall {receiver : Receiver} {name : String} {args : List Expr}
    (h : methodCall cat receiver name args = .ok e) : Made receiver.expr?.toList args e := by
  obtain ⟨_, -, m, -, promoted, hpromotes, rfl⟩ := methodCall_ok h
  exact made_call _ hpromotes

theorem made_element {args : List Expr} (h : element cat l args = .ok e) : Made [l] args e := by
  rcases element_ok h with ⟨item, position, p, -, rfl, hpromotes, rfl⟩ | ⟨_, -, m, -, promoted, hpromotes, rfl⟩
  · intro link step bound hle hcontinued hnested
    have hl := hcontinued l List.mem_cons_self
    have hposition := hnested position List.mem_cons_self
    have hconverted := hpromotes.adapted.depth_le link step
    rw [Expr.depth_index]
    omega
  · exact made_call (some l) hpromotes

theorem made_aggregate {n : Nat} {name : String} {args : List Expr}
    (h : Typing.aggregate cat l n name args = .ok e) : Made [l] args e := by
  obtain ⟨op, params, promoted, body, -, hpromotes, rfl, rfl⟩ := aggregate_ok h
  intro link step bound hle hcontinued hnested
  have hl := hcontinued l List.mem_cons_self
  have hlast : ∀ {xs : List Expr}, (∀ x ∈ xs, step + x.depth link step ≤ link + bound) →
      Expr.depthOption link step step xs.getLast? ≤ 3 * link + bound := by
    intro xs hxs
    cases hbody : xs.getLast? with
    | none => exact Nat.zero_le _
    | some x =>
        have hx := hxs x (List.mem_of_getLast? hbody)
        rw [Expr.depthOption_some]
        omega
  rw [Expr.depth_aggregate, Nat.max_le]
  refine ⟨by omega, ?_⟩
  split
  · exact hlast fun x hx => Nat.le_trans (hnested x hx) (Nat.le_add_left _ _)
  · exact hlast (hpromotes.depth_le hnested)

theorem made_projection (fields : List (String × Expr)) : Made [] (fields.map (·.2)) (projection fields) := by
  intro link step bound _ _ hnested
  have hle : Expr.depthAll link step step (fields.map (·.2)) ≤ bound := Expr.depthAll_le (Nat.le_refl _) hnested
  exact Nat.le_trans hle (Nat.le_add_left _ _)

end Typing

end RowQuery
