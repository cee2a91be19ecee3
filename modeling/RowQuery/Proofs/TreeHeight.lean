import RowQuery.Proofs.Embedding
import RowQuery.Proofs.ExpressionDepth
import RowQuery.Proofs.RoundTrip

/-!
How high compiled expressions are. The limit on the nesting of phrases bounds how often a path down a compiled
expression goes into a nested phrase, whatever the text. Chains of operators and of members are read in loops, which
the limit does not count, so the steps along them are bounded by the length of the text only: each token adds at most
three. A sum of ones, which has nothing nested in it, is as high as it is long.
-/

namespace RowQuery

open Parse Grammar

variable {e l r : Expr}

/-! ### Phrases -/

/-- What an expression made of so many tokens may have grown to: so much nesting, and three links a token. -/
structure Grown (n k : Nat) (e : Expr) : Prop where
  nesting : e.depth 0 1 ≤ n
  height : e.depth 1 1 ≤ n + 3 * k

namespace Grown

variable {n k : Nat}

theorem deeper (h : Grown n k e) {n' : Nat} (hn : n ≤ n') : Grown n' k e where
  nesting := Nat.le_trans h.nesting hn
  height :=
    calc e.depth 1 1
      _ ≤ n + 3 * k := h.height
      _ ≤ n' + 3 * k := Nat.add_le_add_right hn _

theorem longer (h : Grown n k e) {k' : Nat} (hk : k ≤ k') : Grown n k' e where
  nesting := h.nesting
  height :=
    calc e.depth 1 1
      _ ≤ n + 3 * k := h.height
      _ ≤ n + 3 * k' := by omega

theorem of_single (h : e.Single) (n k : Nat) : Grown n k e :=
  ⟨by rw [h]; exact Nat.zero_le _, by rw [h]; exact Nat.zero_le _⟩

/-- A rule takes one token more and adds one to the nesting of what it holds as nested. -/
theorem of_made {continued nested : List Expr} (h : Made continued nested e)
    (hcontinued : ∀ x ∈ continued, Grown (n + 1) k x) (hnested : ∀ x ∈ nested, Grown n k x) :
    Grown (n + 1) (k + 1) e := by
  have hnesting : e.depth 0 1 ≤ 3 * 0 + (n + 1) := by
    refine h (by decide) (fun x hx => (hcontinued x hx).nesting) fun x hx => ?_
    have := (hnested x hx).nesting
    omega
  have hheight : e.depth 1 1 ≤ 3 * 1 + (n + 1 + 3 * k) := by
    refine h (by decide) (fun x hx => (hcontinued x hx).height) fun x hx => ?_
    have := (hnested x hx).height
    omega
  exact ⟨by omega, by omega⟩

end Grown

/-- A scope in which names stand for parameters and values, but not for compiled expressions. -/
structure Scope.Flat (scope : Scope) : Prop where
  implicit : ∀ e, scope.it = some e → e.Single
  symbols : ∀ name symbol, scope.symbols.lookup name = some symbol → ∃ e, symbol = .expr e ∧ e.Single

theorem Leaf.single {scope : Scope} (hscope : scope.Flat) (h : Leaf scope e) : e.Single := by
  have hliteral : (∃ t v source, e = .literal t v source) → e.Single := by
    rintro ⟨_, _, _, rfl⟩ _ _
    rfl
  cases h with
  | quoted h => exact hliteral (exists_literal_of_quoted h)
  | integer h => exact hliteral (exists_literal_of_integer h)
  | real h => exact hliteral (exists_literal_of_real h)
  | truth b => exact fun _ _ => rfl
  | null => exact fun _ _ => rfl
  | implicit h => exact hscope.implicit e h
  | symbol h =>
      obtain ⟨_, heq, hsingle⟩ := hscope.symbols _ _ h
      cases heq
      exact hsingle

namespace Grammar

/-- A reader whose results have grown by the tokens it consumes, and to no more than some nesting. -/
def Grows (n : Nat) (p : Parse Expr) : Prop :=
  ∀ {scope : Scope} {s s' : Reading} {e : Expr}, scope.Flat → Reads p scope s e s' →
    Grown n (s.left - s'.left) e

/-- What is read inside a phrase consumes tokens and grows to some nesting. -/
structure Level.Grows (n : Nat) (inner : Level) : Prop extends inner.Derived where
  grows_expression : Grammar.Grows n inner.expression
  grows_operand : Grammar.Grows n inner.operand

variable {scope : Scope} {s s' : Reading} {inner : Level} {n : Nat}

/-- Items between commas have each grown by tokens of their own. -/
theorem separated_grown {α : Type} {item : List α → Parse α} {value : α → Expr}
    (hitem : ∀ {done t a u}, Reads (item done) scope t a u → Grown n (t.left - u.left) (value a) ∧ u.left < t.left)
    {as : List α} (h : Reads (separated item) scope s as s') :
    (∀ a ∈ as, Grown n (s.left - s'.left) (value a)) ∧ s'.left < s.left := by
  have hkeeps := separated_keeps
    (I := fun done t => (∀ a ∈ done, Grown n (s.left - t.left) (value a)) ∧ t.left ≤ s.left)
    (fun h => (hitem h).2) ?_ ?_ ⟨by simp, Nat.le_refl _⟩ h
  · exact ⟨hkeeps.1.1, hkeeps.2⟩
  · rintro done t u ⟨hdone, ht⟩ hu
    have hle := (reads_advance hu).2.2.2.1
    exact ⟨fun a ha => (hdone a ha).longer (by omega), by omega⟩
  · rintro done t a u ⟨hdone, ht⟩ ha
    obtain ⟨hgrown, hlt⟩ := hitem ha
    refine ⟨List.forall_mem_append.mpr ⟨?_, List.forall_mem_singleton.mpr ?_⟩, by omega⟩
    · exact fun a ha => (hdone a ha).longer (by omega)
    · exact hgrown.longer (by omega)

/-- An expression that takes up the token at hand is a single node. -/
theorem leaf_grown (hscope : scope.Flat) {leaf : Expr} (hleaf : Leaf scope leaf)
    (h : Reads (do advance; return leaf) scope s e s') : Grown (n + 1) (s.left - s'.left) e := by
  simp only [reads_bind, reads_pure] at h
  obtain ⟨_, _, _, rfl, _⟩ := h
  exact .of_single (hleaf.single hscope) _ _

theorem literal_grown (hscope : scope.Flat) {reading : Option Expr} {fault : Fault}
    (hleaf : ∀ e, reading = some e → Leaf scope e) (h : Reads (literal reading fault) scope s e s') :
    Grown (n + 1) (s.left - s'.left) e := by
  unfold literal at h
  split at h
  · exact leaf_grown hscope (hleaf _ rfl) h
  · exact absurd h reads_fail

section

variable (hinner : inner.Grows n) (hscope : scope.Flat)

include hinner hscope

theorem arguments_grown {args : List Expr} (h : Reads (arguments inner) scope s args s') :
    (∀ x ∈ args, Grown n (s.left - s'.left) x) ∧ s'.left < s.left :=
  separated_grown (fun h => ⟨hinner.grows_expression hscope h, (hinner.expression h).2⟩) h

/-- The parenthesis before arguments is no part of them. -/
theorem argumentList_grown {args : List Expr} (h : Reads (argumentList inner) scope s args s') :
    (∀ x ∈ args, Grown n (s.left - s'.left - 1) x) ∧ s'.left < s.left := by
  simp only [argumentList, reads_bind, reads_at?] at h
  obtain ⟨_, m, hopen, _, _, ⟨rfl, rfl⟩, h⟩ := h
  have hlt := (expect_reads hopen (by decide)).2
  rcases reads_ite.mp h with ⟨_, h⟩ | ⟨_, h⟩
  · simp only [reads_bind, reads_pure] at h
    obtain ⟨_, _, ⟨rfl, rfl⟩, _, _, hclose, rfl, rfl⟩ := h
    have hlt' := (expect_reads hclose (by decide)).2
    exact ⟨by simp, by omega⟩
  · simp only [reads_bind, reads_pure] at h
    obtain ⟨_, p, hargs, _, _, hclose, rfl, rfl⟩ := h
    obtain ⟨hgrown, hlt'⟩ := arguments_grown hinner hscope hargs
    have hlt'' := (expect_reads hclose (by decide)).2
    exact ⟨fun x hx => (hgrown x hx).longer (by omega), by omega⟩

/-- A member goes on from its receiver, which was made of tokens before it. -/
theorem member_grown {receiver : Typing.Receiver} {k : Nat}
    (hreceiver : ∀ x ∈ receiver.expr?.toList, Grown (n + 1) k x)
    (h : Reads (member inner receiver) scope s e s') : Grown (n + 1) (k + (s.left - s'.left)) e := by
  simp only [member, reads_bind, reads_token, reads_at?] at h
  obtain ⟨_, _, ⟨rfl, rfl⟩, name, _, hname, _, m, hadvance, _, _, ⟨rfl, rfl⟩, h⟩ := h
  obtain ⟨hk, rfl⟩ := identifier_reads hname
  have hlt := (reads_advance hadvance).2.2.2.2 (by simp [hk])
  -- the tokens of the receiver and of the arguments, without the name
  have hpaid : ∀ {args : List Expr} {o : Reading}, (∀ x ∈ args, Grown n (m.left - o.left) x) → o.left ≤ m.left →
      Made receiver.expr?.toList args e → Grown (n + 1) (k + (s.left - o.left)) e := by
    intro args o hargs hle hmade
    have hgrown : Grown (n + 1) (k + (m.left - o.left) + 1) e :=
      .of_made hmade (fun x hx => (hreceiver x hx).longer (by omega))
        fun x hx => (hargs x hx).longer (by omega)
    exact hgrown.longer (by omega)
  rcases reads_ite.mp h with ⟨_, hcall⟩ | ⟨_, hproperty⟩
  · simp only [reads_bind, reads_read] at hcall
    obtain ⟨_, _, ⟨rfl, rfl⟩, hcall⟩ := hcall
    split at hcall
    · rename_i item source hitem hsource
      simp only [reads_bind, reads_newSlot, reads_withReader, reads_typed] at hcall
      obtain ⟨_, _, ⟨rfl, rfl⟩, args, o, hargs, htyped, rfl⟩ := hcall
      have hitems : Scope.Flat { scope with it := some (.param item m.slots) } :=
        ⟨fun e he => by cases he; exact fun _ _ => rfl, hscope.symbols⟩
      obtain ⟨hargs, hlt'⟩ := argumentList_grown hinner hitems hargs
      refine hpaid (fun x hx => (hargs x hx).longer (Nat.sub_le _ _)) (Nat.le_of_lt hlt') ?_
      rw [hsource]
      exact Typing.made_aggregate htyped
    · simp only [reads_bind, reads_typed] at hcall
      obtain ⟨args, o, hargs, htyped, rfl⟩ := hcall
      obtain ⟨hargs, hlt'⟩ := argumentList_grown hinner hscope hargs
      exact hpaid (fun x hx => (hargs x hx).longer (Nat.sub_le _ _)) (Nat.le_of_lt hlt')
        (Typing.made_methodCall htyped)
  · obtain ⟨htyped, rfl⟩ := reads_typed.mp hproperty
    exact hpaid (by simp) (Nat.le_refl _) (Typing.made_property htyped)

theorem element_grown {list : Expr} {k : Nat} (hlist : Grown (n + 1) k list)
    (h : Reads (element inner list) scope s e s') : Grown (n + 1) (k + (s.left - s'.left)) e := by
  simp only [element, reads_bind, reads_token, reads_typed] at h
  obtain ⟨_, _, ⟨rfl, rfl⟩, _, m, hadvance, args, o, hargs, _, p, hclose, htyped, rfl⟩ := h
  have hle := (reads_advance hadvance).2.2.2.1
  obtain ⟨hargs, hlt⟩ := arguments_grown hinner hscope hargs
  have hlt' := (expect_reads hclose (by decide)).2
  have hgrown : Grown (n + 1) (k + (m.left - o.left) + 1) e :=
    .of_made (Typing.made_element htyped)
      (List.forall_mem_singleton.mpr (hlist.longer (by omega)))
      fun x hx => (hargs x hx).longer (by omega)
  exact hgrown.longer (by omega)

theorem field_grown {before : List (String × Expr)} {named : String × Expr}
    (h : Reads (field inner before) scope s named s') : Grown n (s.left - s'.left) named.2 := by
  simp only [field, reads_bind, reads_token] at h
  obtain ⟨_, _, ⟨rfl, rfl⟩, value, m, hvalue, name, o, hname, h⟩ := h
  have hle := (fieldName_reads hname).2
  rcases reads_ite.mp h with ⟨_, htaken⟩ | ⟨_, hfree⟩
  · obtain ⟨_, _, hthrow, _⟩ := reads_bind.mp htaken
    exact absurd hthrow reads_throw
  · obtain ⟨rfl, rfl⟩ := reads_pure.mp hfree
    exact (hinner.grows_expression hscope hvalue).longer (by omega)

theorem projection_grown (h : Reads (projection inner) scope s e s') : Grown (n + 1) (s.left - s'.left) e := by
  simp only [projection, reads_bind, reads_modify, reads_pure] at h
  obtain ⟨_, m, hadvance, _, o, hopen, fields, p, hfields, _, q, hclose, _, _, rfl, rfl, rfl⟩ := h
  have hle := (reads_advance hadvance).2.2.2.1
  have hlt := (expect_reads hopen (by decide)).2
  have hlt' := (expect_reads hclose (by decide)).2
  obtain ⟨hvalues, hlt''⟩ := separated_grown
    (fun h => ⟨field_grown hinner hscope h, (field_reads hinner.toDerived h).2⟩) hfields
  have hgrown : Grown (n + 1) (o.left - p.left + 1) (Typing.projection fields) :=
    .of_made (Typing.made_projection fields) (by simp) (List.forall_mem_map.mpr hvalues)
  refine hgrown.longer ?_
  show o.left - p.left + 1 ≤ s.left - q.left
  omega

theorem conditionalCall_grown (h : Reads (conditionalCall inner) scope s e s') :
    Grown (n + 1) (s.left - s'.left) e := by
  simp only [conditionalCall, reads_bind, reads_token] at h
  obtain ⟨_, _, ⟨rfl, rfl⟩, _, m, hadvance, args, o, hargs, h⟩ := h
  have hle := (reads_advance hadvance).2.2.2.1
  obtain ⟨hargs, hlt⟩ := argumentList_grown hinner hscope hargs
  split at h
  · obtain ⟨htyped, rfl⟩ := reads_typed.mp h
    have hgrown : Grown (n + 1) (m.left - o.left - 1 + 1) e :=
      .of_made (Typing.made_conditional htyped) (by simp) hargs
    exact hgrown.longer (by omega)
  · exact absurd h reads_throw

theorem typeAccess_grown {ty : Ty} {text : String}
    (hty : (Ty.predefined? text).or (scope.context.lookup? text) = some ty)
    (h : Reads (typeAccess inner ty) scope s e s') : Grown (n + 1) (s.left - s'.left) e := by
  simp only [typeAccess, reads_bind, reads_token, reads_at?] at h
  obtain ⟨_, _, ⟨rfl, rfl⟩, _, m, hadvance, form, o, hform, _, _, ⟨rfl, rfl⟩, h⟩ := h
  have hle := (reads_advance hadvance).2.2.2.1
  have hle' := (typeForm_reads hty hform).2.2
  rcases reads_ite.mp h with ⟨_, hcall⟩ | ⟨_, hmember⟩
  · simp only [reads_bind, reads_typed] at hcall
    obtain ⟨args, p, hargs, htyped, rfl⟩ := hcall
    obtain ⟨hargs, hlt⟩ := argumentList_grown hinner hscope hargs
    have hgrown : Grown (n + 1) (o.left - p.left - 1 + 1) e :=
      .of_made (Typing.made_construction htyped) (by simp) hargs
    exact hgrown.longer (by omega)
  · obtain ⟨_, p, hdot, hmember⟩ := reads_bind.mp hmember
    have hlt := (expect_reads hdot (by decide)).2
    have hgrown : Grown (n + 1) (0 + (p.left - s'.left)) e :=
      member_grown hinner hscope (by simp [Typing.Receiver.expr?]) hmember
    exact hgrown.longer (by omega)

theorem named_grown {text : String} (h : Reads (named inner text) scope s e s') :
    Grown (n + 1) (s.left - s'.left) e := by
  simp only [named, reads_bind, reads_read] at h
  obtain ⟨_, _, ⟨rfl, rfl⟩, h⟩ := h
  split at h
  · rename_i ty hty
    exact typeAccess_grown hinner hscope hty h
  · split at h
    · rename_i hsymbol
      exact leaf_grown hscope (.symbol hsymbol) h
    · rename_i hsymbol
      obtain ⟨_, heq, _⟩ := hscope.symbols _ _ hsymbol
      cases heq
    · rename_i it _ hit
      have hgrown : Grown (n + 1) (0 + (s.left - s'.left)) e :=
        member_grown hinner hscope (List.forall_mem_singleton.mpr (.of_single (hscope.implicit it hit) _ _)) h
      rwa [Nat.zero_add] at hgrown
    · exact absurd h reads_fail

theorem word_grown {text : String} (h : Reads (word inner text) scope s e s') : Grown (n + 1) (s.left - s'.left) e := by
  unfold word at h
  split at h
  · exact leaf_grown hscope (.truth true) h
  · exact leaf_grown hscope (.truth false) h
  · exact leaf_grown hscope .null h
  · simp only [implicit, reads_bind, reads_read] at h
    obtain ⟨_, _, ⟨rfl, rfl⟩, h⟩ := h
    split at h
    · rename_i hit
      exact leaf_grown hscope (.implicit hit) h
    · exact absurd h reads_fail
  · exact conditionalCall_grown hinner hscope h
  · exact projection_grown hinner hscope h
  · exact named_grown hinner hscope h

end

theorem primaryStart_grows (hinner : inner.Grows n) : Grows (n + 1) (primaryStart inner) := by
  intro scope s s' e hscope h
  simp only [primaryStart, reads_bind, reads_token] at h
  obtain ⟨_, _, ⟨rfl, rfl⟩, h⟩ := h
  split at h
  · exact word_grown hinner hscope h
  · exact literal_grown hscope (fun _ => .quoted) h
  · exact literal_grown hscope (fun _ => .integer) h
  · exact literal_grown hscope (fun _ => .real) h
  · simp only [reads_bind, reads_pure] at h
    obtain ⟨_, m, hadvance, _, o, he, _, p, hclose, rfl, rfl⟩ := h
    have hle := (reads_advance hadvance).2.2.2.1
    have hlt := (expect_reads hclose (by decide)).2
    exact ((hinner.grows_expression hscope he).deeper (Nat.le_succ _)).longer (by omega)
  · exact absurd h reads_fail

theorem primary_grows (hinner : inner.Grows n) : Grows (n + 1) (primary inner) := by
  intro scope s s' e hscope h
  obtain ⟨first, m, hfirst, hlater⟩ := reads_bind.mp h
  have hsteps := (reads_repeatStep (nextMember_left hinner.toDerived)).mp hlater
  have hkeeps := hsteps.keeps (I := fun x t => Grown (n + 1) (s.left - t.left) x ∧ t.left < s.left) ?_ ?_
    ⟨primaryStart_grows hinner hscope hfirst, (primaryStart_derived hinner.toDerived hfirst).2⟩
  · exact hkeeps.1
  · rintro x t y u ⟨hx, hlt⟩ hnext
    have hlt' := nextMember_left hinner.toDerived _ _ _ _ hnext
    refine ⟨?_, by omega⟩
    simp only [nextMember, reads_bind, reads_token] at hnext
    obtain ⟨_, _, ⟨rfl, rfl⟩, hnext⟩ := hnext
    split at hnext
    · simp only [reads_bind, reads_pure] at hnext
      obtain ⟨_, m, hadvance, _, _, hmember, heq, rfl⟩ := hnext
      cases heq
      have hle := (reads_advance hadvance).2.2.2.1
      have hreceiver : ∀ y ∈ (Typing.Receiver.value x).expr?.toList, Grown (n + 1) (s.left - t.left) y :=
        List.forall_mem_singleton.mpr hx
      exact (member_grown hinner hscope hreceiver hmember).longer (by omega)
    · simp only [reads_bind, reads_pure] at hnext
      obtain ⟨_, _, helement, heq, rfl⟩ := hnext
      cases heq
      exact (element_grown hinner hscope hx helement).longer (by omega)
    · cases (reads_pure.mp hnext).1
  · rintro x t u hx hnone
    rcases nextMember_reads hinner.toDerived hnone with ⟨_, hsome, _⟩ | ⟨_, rfl⟩
    · simp at hsome
    · exact hx

theorem unary_grows (hinner : inner.Grows n) : Grows (n + 1) (unary inner) := by
  intro scope s s' e hscope h
  simp only [unary, reads_bind, reads_token] at h
  obtain ⟨_, _, ⟨rfl, rfl⟩, h⟩ := h
  split at h
  · exact primary_grows hinner hscope h
  · rename_i op hop
    have hsign : s.token.kind ≠ .done := by
      intro hdone
      simp [unaryOperator?, hdone, Token.isWord] at hop
    simp only [reads_bind, reads_token] at h
    obtain ⟨_, m, hadvance, _, _, ⟨rfl, rfl⟩, h⟩ := h
    have hlt := (reads_advance hadvance).2.2.2.2 hsign
    rcases reads_ite.mp h with ⟨_, hfolded⟩ | ⟨_, happlied⟩
    · simp only [reads_bind, reads_modify] at hfolded
      obtain ⟨_, _, rfl, hprimary⟩ := hfolded
      exact (primary_grows hinner hscope hprimary).longer (Nat.sub_le_sub_right (Nat.le_of_lt hlt) _)
    · simp only [reads_bind, reads_typed] at happlied
      obtain ⟨operand, o, hoperand, htyped, rfl⟩ := happlied
      have hgrown : Grown (n + 1) (m.left - o.left + 1) e :=
        .of_made (Typing.made_unary htyped) (by simp)
          (List.forall_mem_singleton.mpr (hinner.grows_operand hscope hoperand))
      have hlt' := (hinner.operand hoperand).2
      exact hgrown.longer (by omega)

/-- An operator continues its left operand and holds the right one as nested. -/
theorem operators_made {k : Nat} {t : Token} {combine : Token → Expr → Expr → Parse Expr}
    (hop : operators k t = some combine) (h : Reads (combine t l r) scope s e s') : Made [l] [r] e := by
  unfold operators at hop
  split at hop
  · split at hop <;> cases hop
    exact Typing.made_logical (reads_typed.mp h).1
  · split at hop <;> cases hop
    exact Typing.made_logical (reads_typed.mp h).1
  · obtain ⟨_, -, rfl⟩ := Option.map_eq_some_iff.mp hop
    exact Typing.made_comparison (reads_typed.mp h).1
  · split at hop <;> cases hop
    · exact Typing.made_sum (reads_typed.mp h).1
    · exact Typing.made_arithmetic (reads_typed.mp h).1
    · obtain ⟨rfl, -⟩ := reads_pure.mp h
      exact Typing.made_concatenation l r
  · obtain ⟨_, -, rfl⟩ := Option.map_eq_some_iff.mp hop
    exact Typing.made_arithmetic (reads_typed.mp h).1
  · cases hop

/-- Each level of operators adds one to the nesting, however long its chains are. -/
theorem reader_grows (hinner : inner.Grows n) {j : Nat} (hj : j ≤ 5) : Grows (n + 1 + j) (reader inner (6 - j)) := by
  induction j with
  | zero => exact unary_grows hinner
  | succ j ih =>
      intro scope s s' e hscope h
      have hoperand : Grows (n + 1 + j) (reader inner (6 - j)) := ih (by omega)
      have hleft : Derived (reader inner (6 - j)) := reader_derived hinner.toDerived _
      have htighter : 6 - (j + 1) + 1 = 6 - j := by omega
      obtain ⟨first, m, hfirst, hlater⟩ := (reads_reader hinner.toDerived (by omega)).mp h
      rw [htighter] at hfirst hlater
      have hkeeps := hlater.keeps (I := fun x t => Grown (n + 1 + j + 1) (s.left - t.left) x ∧ t.left < s.left) ?_ ?_
        ⟨(hoperand hscope hfirst).deeper (Nat.le_succ _), (hleft hfirst).2⟩
      · exact hkeeps.1
      · rintro x t y u ⟨hx, hlt⟩ hnext
        rcases reads_nextOperand.mp hnext with ⟨combine, v, right, w, _, hop, hv, hright, hy, heq⟩ | ⟨_, hnone, _⟩
        · cases heq
          obtain rfl := operators_reads hop hy
          have hle := (reads_advance hv).2.2.2.1
          have hlt' := (hleft hright).2
          have hgrown : Grown (n + 1 + j + 1) (s.left - u.left - 1 + 1) y :=
            .of_made (operators_made hop hy)
              (List.forall_mem_singleton.mpr (hx.longer (by omega)))
              (List.forall_mem_singleton.mpr ((hoperand hscope hright).longer (by omega)))
          exact ⟨hgrown.longer (by omega), by omega⟩
        · cases hnone
      · rintro x t u hx hnone
        rcases reads_nextOperand.mp hnone with ⟨_, _, _, _, _, _, _, _, _, hsome⟩ | ⟨_, _, rfl⟩
        · cases hsome
        · exact hx

theorem conditional_grows (hinner : inner.Grows n) : Grows (n + 7) (conditional inner) := by
  intro scope s s' e hscope h
  simp only [conditional, reads_bind, reads_token, reads_at?] at h
  obtain ⟨_, _, ⟨rfl, rfl⟩, test, m, htest, _, _, ⟨rfl, rfl⟩, h⟩ := h
  have hlt := (disjunction_derived hinner.toDerived htest).2
  have hgrown : Grown (n + 6) (s.left - m.left) test := reader_grows hinner (Nat.le_refl 5) hscope htest
  rcases reads_ite.mp h with ⟨_, hbranches⟩ | ⟨_, hplain⟩
  · simp only [reads_bind, reads_typed] at hbranches
    obtain ⟨_, o, hadvance, yes, p, hyes, _, q, hcolon, no, t, hno, htyped, rfl⟩ := hbranches
    have hle := (reads_advance hadvance).2.2.2.1
    have hlt₁ := (hinner.expression hyes).2
    have hlt₂ := (expect_reads hcolon (by decide)).2
    have hlt₃ := (hinner.expression hno).2
    have hparts : ∀ x ∈ [test, yes, no], Grown (n + 6) (s.left - t.left - 1) x := by
      simp only [List.forall_mem_cons]
      refine ⟨hgrown.longer (by omega), ?_, ?_, by simp⟩
      · exact ((hinner.grows_expression hscope hyes).deeper (Nat.le_add_right _ _)).longer (by omega)
      · exact ((hinner.grows_expression hscope hno).deeper (Nat.le_add_right _ _)).longer (by omega)
    exact (Grown.of_made (Typing.made_conditional htyped) (by simp) hparts).longer (by omega)
  · obtain ⟨rfl, rfl⟩ := reads_pure.mp hplain
    exact hgrown.deeper (Nat.le_succ _)

/-- Seven levels of precedence stand between one phrase and those nested in it. -/
theorem level_grows (d : Nat) : (level d).Grows (7 * d) := by
  induction d with
  | zero => exact ⟨level_derived 0, fun _ h => absurd h reads_fail, fun _ h => absurd h reads_fail⟩
  | succ d ih =>
      refine ⟨level_derived (d + 1), conditional_grows ih, fun hscope h => ?_⟩
      exact (unary_grows ih hscope h).deeper (by omega)

end Grammar

/-! ### Compiled expressions -/

namespace Environment

variable {env : Environment} {decls : List ParamDecl} {result : Option Ty} {text : String} {args : List Argument}
  {l : Lambda}

/-- Without compiled expressions among the arguments, names stand for single nodes. -/
theorem scope_flat (hargs : ∀ arg ∈ args, ∀ given, arg ≠ .lambda given) {params : List Param} {symbols : Symbols}
    (h : Symbols.ofText params args = .ok symbols) : (env.scope params symbols).Flat := by
  have hsymbols : ∀ x ∈ symbols, ∃ e, x.2 = .expr e ∧ e.Single := by
    refine Symbols.forall_ofText (P := fun x => ∃ e, x = .expr e ∧ e.Single) h ?_ ?_
    · exact fun p _ => ⟨_, rfl, fun _ _ => rfl⟩
    · intro arg harg sym hsym
      cases arg with
      | lambda l => exact absurd rfl (hargs _ harg l)
      | value v | typed v ty =>
          rw [List.mem_singleton.mp hsym]
          exact ⟨_, rfl, fun _ _ => rfl⟩
      | named values =>
          obtain ⟨x, _, rfl⟩ := List.mem_map.mp hsym
          exact ⟨_, rfl, fun _ _ => rfl⟩
  refine ⟨?_, fun name sym hsym => hsymbols _ (mem_of_lookup hsym)⟩
  intro e he
  have himplicit : implicit? params = some e := he
  unfold implicit? at himplicit
  split at himplicit
  · cases himplicit
    exact fun _ _ => rfl
  · cases himplicit

/-- The nesting of a compiled body is bounded whatever the text, and its height by the number of tokens. -/
theorem compiled_height (hargs : ∀ arg ∈ args, ∀ given, arg ≠ .lambda given)
    (h : env.Compiles decls result text args l) :
    l.body.nesting ≤ 7 * maxDepth ∧ l.body.height ≤ 7 * maxDepth + 3 * (scan text).tokens.length + 2 := by
  obtain ⟨shapes, h⟩ := h
  obtain ⟨⟨e, slots⟩, hread, rfl⟩ := Shaping.exec_map_eq_ok.mp (Prod.ext h rfl)
  obtain ⟨symbols, after, hsymbols, hreads, -, -⟩ := reading_eq_ok.mp hread
  obtain ⟨_, s, hadvance, hwhole⟩ := reads_bind.mp hreads
  have hleft : s.left ≤ (scan text).tokens.length := (reads_advance hadvance).2.2.2.1
  simp only [whole, reads_bind, reads_token, reads_typed, reads_require, reads_pure] at hwhole
  obtain ⟨_, _, ⟨rfl, rfl⟩, body, m, hbody, _, _, ⟨hresult, rfl⟩, _, _, _, rfl, rfl⟩ := hwhole
  have hgrown : Grown (7 * maxDepth) (s.left - m.left) body :=
    (level_grows maxDepth).grows_expression (scope_flat hargs hsymbols) hbody
  have hnesting := hgrown.nesting
  have hheight := hgrown.height
  have hadapted := Typing.result_adapted hresult
  have hadapted₀ := hadapted.depth_le 0 1
  have hadapted₁ := hadapted.depth_le 1 1
  simp only [Expr.nesting, Expr.height]
  omega

/-- A sign before a sum in parentheses, compared with an argument. -/
theorem compiled_height_signed :
    ∃ l, Environment.Compiles ⟨.empty, .empty⟩ [⟨none, .int32⟩] (some .boolean) "-(it + 1 + 2) < @0 == true"
        [.value (.int32 9)] l ∧ l.body.nesting = 2 ∧ l.body.height = 6 ∧
      l.body.nesting ≤ 7 * maxDepth ∧ l.body.height ≤ 7 * maxDepth + 3 * 12 + 2 := by
  have hrun : (((Environment.compile ⟨.empty, .empty⟩ [⟨none, .int32⟩] (some .boolean) "-(it + 1 + 2) < @0 == true"
      [.value (.int32 9)]).exec .empty).1.toOption.any fun l =>
        l.body.nesting == 2 && l.body.height == 6) = true := by decide +kernel
  obtain ⟨l, hcompiles, hbody⟩ := exists_compiles hrun
  obtain ⟨hnesting, hheight⟩ := Bool.and_eq_true_iff.mp hbody
  have hbounds := compiled_height (by simp) hcompiles
  have htokens : (scan "-(it + 1 + 2) < @0 == true").tokens.length = 12 := by decide +kernel
  rw [htokens] at hbounds
  exact ⟨l, hcompiles, beq_iff_eq.mp hnesting, beq_iff_eq.mp hheight, hbounds⟩

end Environment

/-! ### Sums -/

def Numeral.one : Numeral := ⟨⟨false, ['1'], by decide, by simp⟩, by decide⟩

theorem Spells.tight (ls : List Lexeme) : Spells ls (ls.flatMap fun l => l.text.toList) := by
  induction ls with
  | nil => exact .nil (by simp)
  | cons l ls ih => exact @Spells.cons [] _ l ls (by simp) ih

namespace Formula

/-- One, and so many times one more. -/
def ones : Nat → Formula
  | 0 => number .one
  | k + 1 => binary .add (ones k) (number .one)

/-- The text of a sum of ones. -/
def onesText (k : Nat) : String := String.ofList ('1' :: (List.replicate k ['+', '1']).flatten)

theorem hasType_ones (env : Environment) (params : List Param) (k : Nat) : (ones k).HasType env params .int32 := by
  induction k with
  | zero => exact .number _
  | succ k ih => exact .arithmetic rfl ih (.number _)

/-- A sum from the left needs no parentheses. -/
theorem tight_ones (k : Nat) : decide ((ones k).precedence < BinaryOp.add.precedence) = false := by
  cases k <;> rfl

theorem nesting_ones (k : Nat) : (ones k).nesting = 0 := by
  induction k with
  | zero => rfl
  | succ k ih =>
      rw [ones, nesting, ih, tight_ones]
      rfl

theorem lexemes_ones_succ (k : Nat) :
    (ones (k + 1)).lexemes = (ones k).lexemes ++ [⟨.plus, "+"⟩, ⟨.integerLiteral, "1"⟩] := by
  rw [ones, lexemes, tight_ones]
  rfl

theorem spells_ones (k : Nat) : Spells (ones k).lexemes (onesText k).toList := by
  have htext : (onesText k).toList = (ones k).lexemes.flatMap fun l => l.text.toList := by
    rw [onesText, String.toList_ofList]
    induction k with
    | zero => rfl
    | succ k ih =>
        rw [lexemes_ones_succ, List.flatMap_append, ← ih, List.replicate_succ', List.flatten_concat]
        rfl
  rw [htext]
  exact .tight _

theorem height_ones (k : Nat) : (ones k).expr.height = k + 1 := by
  have hdepth : (ones k).expr.depth 1 1 = k := by
    induction k with
    | zero => rfl
    | succ k ih =>
        rw [ones, expr, Expr.depth_binary, ih]
        show max (1 + k) (1 + 0) = k + 1
        omega
  rw [Expr.height, hdepth]

end Formula

namespace Environment

/-- A sum of ones compiles, and is as high as it is long. -/
theorem compiles_ones (env : Environment) (k : Nat) :
    ∃ l, env.Compiles [] none (Formula.onesText k) [] l ∧ l.body.height = k + 1 := by
  have hsymbols : ∃ symbols, Symbols.ofText (bindParams []) [] = .ok symbols ∧
      (env.scope (bindParams []) symbols).Declares env (bindParams []) := exists_declares env (by simp)
  obtain ⟨symbols, hsymbols, hscope⟩ := hsymbols
  have htype : (Formula.ones k).HasType env (bindParams []) .int32 := Formula.hasType_ones env _ k
  have hscans := Scans.of_spells (Formula.spells_ones k) htype.linked.whole htype.linked.apart
  have hnesting : (Formula.ones k).nesting < maxDepth := by
    rw [Formula.nesting_ones]
    decide
  have htakes : Takes expression (env.scope (bindParams []) symbols) (0, .empty) (Formula.ones k).lexemes
      (Formula.ones k).expr (0, .empty) [] := (htype.readable hscope).expression hnesting (.nil 0)
  exact ⟨_, compiles_of_takes hsymbols hscans htakes (by simp), Formula.height_ones k⟩

/-- No bound on the height holds for all texts. -/
theorem compiled_height_unbounded :
    ¬∃ bound, ∀ (env : Environment) (decls : List ParamDecl) (result : Option Ty) (text : String)
      (args : List Argument) (l : Lambda), (∀ arg ∈ args, ∀ given, arg ≠ .lambda given) →
        env.Compiles decls result text args l → l.body.height ≤ bound := by
  rintro ⟨bound, hbound⟩
  obtain ⟨l, hcompiles, hheight⟩ := compiles_ones ⟨.empty, .empty⟩ bound
  have hle := hbound _ _ _ _ _ l (by simp) hcompiles
  omega

end Environment

end RowQuery
