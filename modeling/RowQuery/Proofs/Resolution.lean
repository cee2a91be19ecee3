import RowQuery.Typing

/-!
What promotion and the choice of an overload do to expressions. A promoted expression is the expression
itself, a constant that its literal was read as, or a conversion of it; a chosen overload is one of the
candidates, with every argument promoted to its parameter.
-/

namespace RowQuery

variable {cat : Catalog}

/-- The ways in which an expression is promoted to a type. -/
inductive Promotes (cat : Catalog) (e : Expr) (t : Ty) (exact : Bool) : Expr → Prop
  | same (h : e.ty = t) : Promotes cat e t exact e
  | null (he : e.isNullLiteral) (ht : t.admitsNull) : Promotes cat e t exact (.constant t .null)
  | reread {v : Value} (h : Literal.reread? e t = some v) : Promotes cat e t exact (.constant t v)
  | convert (hne : e.ty ≠ t) (h : cat.isCompatible e.ty t) (hform : t.isValueType || exact) :
      Promotes cat e t exact (.convert t false e)
  /-- A reference is used as it is, unless exactly the type is wanted. -/
  | reference (h : cat.isAssignable t e.ty) (ht : t.isValueType = false) (hexact : exact = false) :
      Promotes cat e t exact e

/-- Arguments promoted to parameters, one by one. -/
inductive PromotesAll (cat : Catalog) : List Expr → List Ty → List Expr → Prop
  | nil : PromotesAll cat [] [] []
  | cons {e e' : Expr} {t : Ty} {es es' : List Expr} {ts : List Ty} (head : Promotes cat e t false e')
      (tail : PromotesAll cat es ts es') : PromotesAll cat (e :: es) (t :: ts) (e' :: es')

namespace Promotes

theorem of_promote? {e e' : Expr} {t : Ty} {exact : Bool} (h : cat.promote? e t exact = some e') :
    Promotes cat e t exact e' := by
  by_cases hty : e.ty = t
  · rw [Catalog.promote?, if_pos hty] at h
    cases h
    exact .same hty
  · rw [Catalog.promote?, if_neg hty] at h
    have hcompatible : (if cat.isCompatible e.ty t then
        some (if t.isValueType || exact then Expr.convert t false e else e) else none) = some e' →
        Promotes cat e t exact e' := by
      intro h
      split at h
      · rename_i hcompatible
        cases h
        split
        · rename_i hform
          exact .convert hty hcompatible hform
        · rename_i hform
          simp only [Bool.or_eq_true, not_or, Bool.not_eq_true] at hform
          refine .reference ?_ hform.1 hform.2
          simpa [Catalog.isCompatible, hty, hform.1] using hcompatible
      · cases h
    by_cases hnull : e.isNullLiteral
    · by_cases hadmits : t.admitsNull
      · simp only [hnull, hadmits, if_true] at h
        cases h
        exact .null hnull hadmits
      · simp only [hnull, hadmits, if_true] at h
        exact hcompatible h
    · cases hreread : Literal.reread? e t with
      | some v =>
          simp only [hnull, hreread] at h
          cases h
          exact .reread hreread
      | none =>
          simp only [hnull, hreread] at h
          exact hcompatible h

/-- Where exactly the type is wanted, or it is a value type, the promoted expression has it. -/
theorem ty_eq {e e' : Expr} {t : Ty} {exact : Bool} (h : Promotes cat e t exact e')
    (hform : t.isValueType ∨ exact) : e'.ty = t := by
  cases h with
  | same h => exact h
  | null | reread | convert => rfl
  | reference _ ht hexact => simp [ht, hexact] at hform

end Promotes

/-- Whatever is compatible with a type is promoted to it. -/
theorem Catalog.promote?_isSome {e : Expr} {t : Ty} (h : cat.isCompatible e.ty t) (exact : Bool) :
    (cat.promote? e t exact).isSome := by
  by_cases hty : e.ty = t
  · simp [promote?, hty]
  · rw [promote?, if_neg hty]
    dsimp only
    split
    · rfl
    · rw [if_pos h]
      rfl

theorem PromotesAll.of_promoteAll? {es es' : List Expr} {ts : List Ty}
    (h : Overload.promoteAll? cat es ts = some es') : PromotesAll cat es ts es' := by
  induction es generalizing ts es' with
  | nil =>
      cases ts with
      | nil =>
          cases h
          exact .nil
      | cons t ts => simp [Overload.promoteAll?] at h
  | cons e es ih =>
      cases ts with
      | nil => simp [Overload.promoteAll?] at h
      | cons t ts =>
          simp only [Overload.promoteAll?, Option.bind_eq_bind, Option.bind_eq_some_iff] at h
          obtain ⟨first, hfirst, rest, hrest, heq⟩ := h
          cases heq
          exact .cons (.of_promote? hfirst) (ih hrest)

theorem PromotesAll.length_eq {es es' : List Expr} {ts : List Ty} (h : PromotesAll cat es ts es') :
    ts.length = es.length := by
  induction h with
  | nil => rfl
  | cons _ _ ih => rw [List.length_cons, List.length_cons, ih]

theorem PromotesAll.singleton {es es' : List Expr} {t : Ty} (h : PromotesAll cat es [t] es') :
    ∃ e e', es = [e] ∧ es' = [e'] ∧ Promotes cat e t false e' := by
  cases h with
  | cons head tail =>
      cases tail with
      | nil => exact ⟨_, _, rfl, rfl, head⟩

namespace Overload

theorem mem_winners {candidates : List (List Ty)} {args : List Expr} {choice : Applicable}
    (h : resolve cat candidates args = .found choice) :
    choice ∈ winners cat args (applicable cat candidates args) := by
  simp only [resolve] at h
  split at h
  · rename_i hone
    cases h
    rw [hone]
    exact List.mem_singleton_self _
  · split at h <;> cases h
  · cases h

/-- A chosen overload is one of the candidates, at its place. -/
theorem resolve_found {candidates : List (List Ty)} {args : List Expr} {choice : Applicable}
    (h : resolve cat candidates args = .found choice) :
    candidates[choice.index]? = some choice.params ∧
      PromotesAll cat args choice.params choice.args := by
  obtain ⟨⟨params, index⟩, hzip, happlied⟩ := List.mem_filterMap.mp (List.mem_filter.mp (mem_winners h)).1
  obtain ⟨promoted, hpromoted, rfl⟩ := Option.map_eq_some_iff.mp happlied
  exact ⟨by simpa using List.mem_zipIdx_iff_getElem?.mp hzip, .of_promoteAll? hpromoted⟩

/-- A chosen overload is better than every other one that can be applied. -/
theorem isBetter_of_found {candidates : List (List Ty)} {args promoted : List Expr} {choice : Applicable}
    {params : List Ty} (h : resolve cat candidates args = .found choice) (hmem : params ∈ candidates)
    (hpromoted : promoteAll? cat args params = some promoted) (hne : params ≠ choice.params) :
    isBetter cat args choice.params params := by
  obtain ⟨i, hi⟩ := List.mem_iff_getElem?.mp hmem
  have hother : (⟨i, params, promoted⟩ : Applicable) ∈ applicable cat candidates args :=
    List.mem_filterMap.mpr ⟨(params, i), List.mem_zipIdx_iff_getElem?.mpr hi, by simp [hpromoted]⟩
  have hall := List.all_eq_true.mp (List.mem_filter.mp (mem_winners h)).2 _ hother
  rcases Bool.or_eq_true_iff.mp hall with hindex | hbetter
  · have hsame := (resolve_found h).1
    rw [beq_iff_eq.mp hindex, hi] at hsame
    exact absurd (Option.some.inj hsame) hne
  · exact hbetter

theorem choose_found {α : Type} {params : α → List Ty} {members : List α} {args promoted : List Expr}
    {m : α} (h : choose cat params members args = .found m promoted) :
    m ∈ members ∧ PromotesAll cat args (params m) promoted := by
  unfold choose at h
  split at h
  · cases h
  · cases h
  · rename_i choice hresolve
    split at h
    · rename_i member hmember
      cases h
      obtain ⟨hindex, hpromotes⟩ := resolve_found hresolve
      rw [List.getElem?_map, hmember] at hindex
      have hparams : params m = choice.params := Option.some.inj hindex
      rw [hparams]
      exact ⟨List.mem_of_getElem? hmember, hpromotes⟩
    · cases h

theorem chooseLevel_found {α : Type} {params : α → List Ty} {levels : List (List α)}
    {args promoted : List Expr} {m : α} (h : chooseLevel cat params args levels = .found m promoted) :
    ∃ level ∈ levels, m ∈ level ∧ PromotesAll cat args (params m) promoted := by
  induction levels with
  | nil => cases h
  | cons level levels ih =>
      rw [chooseLevel] at h
      split at h
      · obtain ⟨found, hfound, hm⟩ := ih h
        exact ⟨found, List.mem_cons_of_mem _ hfound, hm⟩
      · exact ⟨level, List.mem_cons_self, choose_found h⟩

/-! ### Overloads that fit exactly -/

section

variable {args : List Expr}

theorem promoteAll?_types : promoteAll? cat args (args.map (·.ty)) = some args := by
  induction args with
  | nil => rfl
  | cons e args ih => simp [promoteAll?, Catalog.promote?, ih]

/-- For no argument is there a better parameter than its own type. -/
theorem lt_notMem_comparisons (params : List Ty) : .lt ∉ comparisons cat args (args.map (·.ty)) params := by
  induction args generalizing params with
  | nil => simp [comparisons]
  | cons e args ih =>
      cases params with
      | nil => simp [comparisons]
      | cons t params =>
          have hhead : cat.compareConversions e.ty e.ty t ≠ .lt := by
            unfold Catalog.compareConversions
            split <;> simp
          simp only [comparisons, List.map_cons, List.zip_cons_cons, List.mem_cons, not_or]
          exact ⟨hhead.symm, ih params⟩

/-- Where parameters differ from the types of the arguments they are worse. -/
theorem mem_comparisons_of_ne (cat : Catalog) {params : List Ty} (hlength : params.length = args.length)
    (hne : params ≠ args.map (·.ty)) :
    .gt ∈ comparisons cat args (args.map (·.ty)) params ∧ .lt ∈ comparisons cat args params (args.map (·.ty)) := by
  induction args generalizing params with
  | nil => exact absurd (List.eq_nil_of_length_eq_zero hlength) hne
  | cons e args ih =>
      cases params with
      | nil => cases hlength
      | cons t params =>
          simp only [comparisons, List.map_cons, List.zip_cons_cons, List.mem_cons]
          by_cases ht : t = e.ty
          · have hrest : params ≠ args.map (·.ty) := by
              rintro rfl
              exact hne (by rw [ht, List.map_cons])
            exact (ih (by simpa using hlength) hrest).imp Or.inr Or.inr
          · refine ⟨Or.inl ?_, Or.inl ?_⟩
            · rw [Catalog.compareConversions, if_neg (Ne.symm ht), if_pos rfl]
            · rw [Catalog.compareConversions, if_neg ht, if_neg (Ne.symm ht), if_pos rfl]

/-- The types of the arguments are better than any other parameters, which are not better than them. -/
theorem isBetter_types {params : List Ty} (hlength : params.length = args.length)
    (hne : params ≠ args.map (·.ty)) :
    isBetter cat args (args.map (·.ty)) params ∧ ¬isBetter cat args params (args.map (·.ty)) := by
  obtain ⟨hgt, hlt⟩ := mem_comparisons_of_ne cat hlength hne
  constructor
  · simp [isBetter, lt_notMem_comparisons, hgt]
  · simp [isBetter, hlt]

/-- The candidate at a place, if it can be applied. -/
def applied? (cat : Catalog) (args : List Expr) (candidate : List Ty × Nat) : Option Applicable :=
  (promoteAll? cat args candidate.1).map fun promoted => ⟨candidate.2, candidate.1, promoted⟩

theorem applicable_eq (candidates : List (List Ty)) :
    applicable cat candidates args = candidates.zipIdx.filterMap (applied? cat args) := rfl

theorem mem_applied {candidates : List (List Ty)} {place : Nat} {m : Applicable}
    (h : m ∈ (candidates.zipIdx place).filterMap (applied? cat args)) :
    m.params ∈ candidates ∧ m.params.length = args.length ∧ place ≤ m.index ∧
      m.index < place + candidates.length := by
  obtain ⟨⟨params, i⟩, hzip, happlied⟩ := List.mem_filterMap.mp h
  obtain ⟨promoted, hpromoted, rfl⟩ := Option.map_eq_some_iff.mp happlied
  obtain ⟨hle, hlt, hget⟩ := List.mem_zipIdx hzip
  refine ⟨?_, (PromotesAll.of_promoteAll? hpromoted).length_eq, hle, hlt⟩
  rw [hget]
  exact List.getElem_mem _

/-- A candidate that is better than every other one wins alone. -/
theorem winners_eq {before after : List Applicable} {best : Applicable}
    (hother : ∀ m ∈ before ++ after, m.index ≠ best.index ∧ isBetter cat args best.params m.params ∧
      ¬isBetter cat args m.params best.params) :
    winners cat args (before ++ best :: after) = [best] := by
  have hwins : (before ++ best :: after).all fun n =>
      best.index == n.index || isBetter cat args best.params n.params := by
    rw [List.all_eq_true]
    intro n hn
    rw [Bool.or_eq_true, beq_iff_eq]
    rcases List.mem_append.mp hn with hn | hn
    · exact Or.inr (hother n (List.mem_append_left _ hn)).2.1
    · rcases List.mem_cons.mp hn with rfl | hn
      · exact Or.inl rfl
      · exact Or.inr (hother n (List.mem_append_right _ hn)).2.1
  have hloses : ∀ m ∈ before ++ after, ¬(before ++ best :: after).all fun n =>
      m.index == n.index || isBetter cat args m.params n.params := by
    intro m hm hall
    obtain ⟨hindex, -, hworse⟩ := hother m hm
    have hbest := List.all_eq_true.mp hall best (by simp)
    rw [Bool.or_eq_true, beq_iff_eq] at hbest
    exact hbest.elim hindex hworse
  rw [winners, List.filter_append, List.filter_cons, if_pos hwins,
    List.filter_eq_nil_iff.mpr fun m hm => hloses m (List.mem_append_left _ hm),
    List.filter_eq_nil_iff.mpr fun m hm => hloses m (List.mem_append_right _ hm)]
  rfl

/-- An overload whose parameters are exactly the types of the arguments is chosen, and leaves the arguments
as they are. -/
theorem resolve_exact {candidates : List (List Ty)} (hmem : args.map (·.ty) ∈ candidates)
    (hdistinct : candidates.Nodup) :
    ∃ index, resolve cat candidates args = .found ⟨index, args.map (·.ty), args⟩ := by
  obtain ⟨before, after, rfl⟩ := List.append_of_mem hmem
  obtain ⟨-, hafter, hbefore⟩ := List.nodup_append.mp hdistinct
  have hexact : applied? cat args (args.map (·.ty), before.length) =
      some ⟨before.length, args.map (·.ty), args⟩ := by
    rw [applied?, promoteAll?_types]
    rfl
  refine ⟨before.length, ?_⟩
  rw [resolve, applicable_eq, List.zipIdx_append, List.filterMap_append, List.zipIdx_cons, Nat.zero_add,
    List.filterMap_cons_some hexact, winners_eq]
  -- every other candidate is at another place and has other parameters
  intro m hm
  rcases List.mem_append.mp hm with hm | hm
  · obtain ⟨hparams, hlength, -, hlt⟩ := mem_applied hm
    rw [Nat.zero_add] at hlt
    exact ⟨Nat.ne_of_lt hlt, isBetter_types hlength (hbefore _ hparams _ List.mem_cons_self)⟩
  · obtain ⟨hparams, hlength, hle, -⟩ := mem_applied hm
    refine ⟨Nat.ne_of_gt hle, isBetter_types hlength ?_⟩
    intro heq
    exact (List.nodup_cons.mp hafter).1 (heq ▸ hparams)

end

end Overload

namespace Typing

theorem bind_eq_ok {ε α β : Type} {x : Except ε α} {f : α → Except ε β} {b : β} :
    x >>= f = .ok b ↔ ∃ a, x = .ok a ∧ f a = .ok b := by
  cases x with
  | ok a =>
      constructor
      · exact fun h => ⟨a, rfl, h⟩
      · rintro ⟨_, heq, h⟩
        cases heq
        exact h
  | error fault =>
      constructor
      · exact fun h => by cases h
      · rintro ⟨_, heq, _⟩
        cases heq

theorem operands_ok {signatures : List (List Ty)} {symbol : String} {left right l r : Expr}
    (h : operands cat signatures symbol left right = .ok (l, r)) :
    ∃ s t, [s, t] ∈ signatures ∧ Promotes cat left s false l ∧ Promotes cat right t false r := by
  unfold operands at h
  split at h
  · rename_i index params l' r' hresolve
    cases h
    obtain ⟨hindex, hpromotes⟩ := Overload.resolve_found hresolve
    obtain ⟨s, t, rfl, hl, hr⟩ : ∃ s t, params = [s, t] ∧ Promotes cat left s false l ∧
        Promotes cat right t false r := by
      cases hpromotes with
      | cons hl hrest =>
          cases hrest with
          | cons hr hnil =>
              cases hnil with
              | nil => exact ⟨_, _, rfl, hl, hr⟩
    exact ⟨s, t, List.mem_of_getElem? hindex, hl, hr⟩
  · cases h

/-- Operands that fit an overload exactly are left as they are. -/
theorem operands_exact {signatures : List (List Ty)} {left right : Expr} (symbol : String)
    (hmem : [left.ty, right.ty] ∈ signatures) (hdistinct : signatures.Nodup) :
    operands cat signatures symbol left right = .ok (left, right) := by
  have hargs : [left, right].map (·.ty) ∈ signatures := hmem
  obtain ⟨index, hresolve⟩ : ∃ index, Overload.resolve cat signatures [left, right] =
      .found ⟨index, [left.ty, right.ty], [left, right]⟩ := Overload.resolve_exact hargs hdistinct
  rw [operands, hresolve]

/-- Truth values are connected as they are. -/
theorem logical_boolean (cat : Catalog) (op : BinaryOp) (symbol : String) {left right : Expr}
    (hleft : left.ty = .boolean) (hright : right.ty = .boolean) :
    logical cat op symbol left right = .ok (.binary .boolean op left right) := by
  have hoperands : operands cat Signatures.logical symbol left right = .ok (left, right) :=
    operands_exact symbol (by rw [hleft, hright]; decide) (by decide)
  rw [logical, hoperands, ← hleft]
  rfl

theorem unary_ok {op : UnaryOp} {symbol : String} {operand e : Expr}
    (h : unary cat op symbol operand = .ok e) :
    ∃ t e', [t] ∈ (match op with | .negate => Signatures.negation | .not => Signatures.not) ∧
      Promotes cat operand t false e' ∧ e = .unary e'.ty op e' := by
  simp only [unary] at h
  split at h
  · rename_i index params e' hresolve
    cases h
    obtain ⟨hindex, hpromotes⟩ := Overload.resolve_found hresolve
    obtain ⟨t, rfl, ht⟩ : ∃ t, params = [t] ∧ Promotes cat operand t false e' := by
      cases hpromotes with
      | cons head tail =>
          cases tail with
          | nil => exact ⟨_, rfl, head⟩
    exact ⟨t, e', List.mem_of_getElem? hindex, ht, rfl⟩
  · cases h

end Typing

end RowQuery
