import Mathlib.Data.List.Perm.Basic
import Mathlib.Data.List.Zip
import RowQuery.Proofs.Resolution

/-!
The choice of an overload as a choice of the one that dominates. Comparing two conversions the other way round
turns the result round, for all types; so no two candidates are better than each other and at most one is better
than all others. A resolution therefore finds a candidate exactly if that candidate dominates, and nothing but
the place it names depends on the order of the candidates or on those that cannot be applied.
-/

namespace RowQuery

variable {cat : Catalog}

/-- Two conversions compared the other way round. -/
theorem Catalog.compareConversions_swap (source a b : Ty) :
    cat.compareConversions source b a = (cat.compareConversions source a b).swap := by
  by_cases hab : a = b
  · subst hab
    rw [compareConversions, if_pos rfl, Ordering.swap]
  have hba : b ≠ a := Ne.symm hab
  by_cases ha : source = a
  · have hb : source ≠ b := fun hb => hab (ha.symm.trans hb)
    simp only [compareConversions, if_neg hab, if_neg hba, if_pos ha, if_neg hb, Ordering.swap]
  by_cases hb : source = b
  · simp only [compareConversions, if_neg hab, if_neg hba, if_neg ha, if_pos hb, Ordering.swap]
  simp only [compareConversions, if_neg hab, if_neg hba, if_neg ha, if_neg hb]
  have hsigned : ∀ t : Ty, t.isSigned → t.isUnsigned = false := by
    intro t ht
    rw [Ty.isSigned, beq_iff_eq] at ht
    rw [Ty.isUnsigned, ht]
    rfl
  -- what is left is decided by the two compatibilities and, where they agree, by the signs
  cases cat.isCompatible a b <;> cases cat.isCompatible b a <;> try rfl
  all_goals
    by_cases has : a.isSigned
    · simp [has, hsigned a has]
      split <;> rfl
    · by_cases hbs : b.isSigned <;> simp [has, hbs]
      split <;> rfl

namespace Overload

variable {candidates : List (List Ty)} {args : List Expr}

/-! ### At most one winner -/

theorem comparisons_swap (a b : List Ty) :
    comparisons cat args b a = (comparisons cat args a b).map Ordering.swap := by
  rw [comparisons, comparisons, ← List.zip_swap a b, List.zip_map_right, List.map_map, List.map_map]
  apply List.map_congr_left
  intro x _
  exact cat.compareConversions_swap x.1.ty x.2.1 x.2.2

/-- No two lists of parameters are better than each other. -/
theorem isBetter_asymm {a b : List Ty} (h : isBetter cat args a b) : isBetter cat args b a = false := by
  simp only [isBetter, Bool.and_eq_true, List.contains_iff_mem] at h
  have hworse : Ordering.lt ∈ comparisons cat args b a := by
    rw [comparisons_swap a b]
    exact List.mem_map.mpr ⟨.gt, h.2, rfl⟩
  simp [isBetter, hworse]

theorem mem_applicable {m : Applicable} :
    m ∈ applicable cat candidates args ↔
      candidates[m.index]? = some m.params ∧ promoteAll? cat args m.params = some m.args := by
  rw [applicable_eq, List.mem_filterMap]
  constructor
  · rintro ⟨⟨params, i⟩, hzip, happlied⟩
    obtain ⟨promoted, hpromoted, rfl⟩ := Option.map_eq_some_iff.mp happlied
    exact ⟨List.mem_zipIdx_iff_getElem?.mp hzip, hpromoted⟩
  · rintro ⟨hindex, hpromoted⟩
    refine ⟨(m.params, m.index), List.mem_zipIdx_iff_getElem?.mpr hindex, ?_⟩
    rw [applied?, hpromoted]
    rfl

/-- The applicable candidates stand at different places. -/
theorem applicable_pairwise :
    (applicable cat candidates args).Pairwise fun m n => m.index ≠ n.index := by
  have hplaces : candidates.zipIdx.Pairwise fun x y => x.2 < y.2 := by
    rw [← List.pairwise_map, List.zipIdx_map_snd]
    exact List.pairwise_lt_range' 1
  rw [applicable_eq]
  refine hplaces.filterMap _ fun x y hlt m hm n hn => ?_
  obtain ⟨_, _, rfl⟩ := Option.map_eq_some_iff.mp hm
  obtain ⟨_, _, rfl⟩ := Option.map_eq_some_iff.mp hn
  exact Nat.ne_of_lt hlt

theorem mem_winners_iff {found : List Applicable} {m : Applicable} :
    m ∈ winners cat args found ↔
      m ∈ found ∧ ∀ n ∈ found, n.index ≠ m.index → isBetter cat args m.params n.params := by
  rw [winners, List.mem_filter, List.all_eq_true]
  refine and_congr_right fun _ => forall₂_congr fun n _ => ?_
  rw [Bool.or_eq_true, beq_iff_eq, ne_comm]
  exact or_iff_not_imp_left

theorem length_winners_le_one : (winners cat args (applicable cat candidates args)).length ≤ 1 := by
  have hpairwise : (winners cat args (applicable cat candidates args)).Pairwise fun m n => m.index ≠ n.index :=
    applicable_pairwise.sublist List.filter_sublist
  cases hwinners : winners cat args (applicable cat candidates args) with
  | nil => exact Nat.zero_le 1
  | cons m rest =>
      cases rest with
      | nil => exact Nat.le_refl 1
      | cons n rest =>
          exfalso
          rw [hwinners] at hpairwise
          have hne : m.index ≠ n.index := (List.pairwise_cons.mp hpairwise).1 n List.mem_cons_self
          obtain ⟨hm, hbetter⟩ := mem_winners_iff.mp (hwinners ▸ List.mem_cons_self)
          obtain ⟨hn, hbetter'⟩ := mem_winners_iff.mp (hwinners ▸ List.mem_cons_of_mem m List.mem_cons_self)
          have hasymm := isBetter_asymm (hbetter n hn hne.symm)
          rw [hbetter' m hm hne] at hasymm
          cases hasymm

/-! ### Dominance -/

/-- Whether a candidate can be applied: it has a parameter for every argument, and every argument can be promoted
to its parameter. -/
def applies (cat : Catalog) (args : List Expr) (params : List Ty) : Bool :=
  params.length == args.length && (args.zip params).all fun (e, t) => (cat.promote? e t false).isSome

/-- A candidate that can be applied, with the arguments promoted to its parameters, and that is better than every
other one that can be. -/
structure Dominant (cat : Catalog) (candidates : List (List Ty)) (args : List Expr) (choice : Applicable) :
    Prop where
  place : candidates[choice.index]? = some choice.params
  applies : applies cat args choice.params
  promoted : List.zipWith (fun e t => cat.promote? e t false) args choice.params = choice.args.map some
  better : ∀ i params, candidates[i]? = some params → i ≠ choice.index → Overload.applies cat args params →
    isBetter cat args choice.params params

theorem isSome_promoteAll? (params : List Ty) :
    (promoteAll? cat args params).isSome = applies cat args params := by
  induction args generalizing params with
  | nil => cases params <;> rfl
  | cons e args ih =>
      cases params with
      | nil => rfl
      | cons t params =>
          have hrest := ih params
          rw [applies] at hrest ⊢
          simp only [promoteAll?, List.zip_cons_cons, List.all_cons, List.length_cons]
          cases cat.promote? e t false with
          | none => simp
          | some first =>
              cases hpromoted : promoteAll? cat args params with
              | none => simpa [hpromoted] using hrest
              | some rest => simpa [hpromoted] using hrest

/-- The promoted arguments are the promotions of the arguments, one by one. -/
theorem promoteAll?_eq_some_iff {params : List Ty} {promoted : List Expr} :
    promoteAll? cat args params = some promoted ↔ applies cat args params ∧
      List.zipWith (fun e t => cat.promote? e t false) args params = promoted.map some := by
  have hzip : ∀ {args : List Expr} {params : List Ty} {promoted : List Expr},
      promoteAll? cat args params = some promoted →
        List.zipWith (fun e t => cat.promote? e t false) args params = promoted.map some := by
    intro args
    induction args with
    | nil =>
        intro params promoted h
        cases params with
        | nil =>
            cases h
            rfl
        | cons t params => cases h
    | cons e args ih =>
        intro params promoted h
        cases params with
        | nil => cases h
        | cons t params =>
            simp only [promoteAll?, Option.bind_eq_bind, Option.bind_eq_some_iff] at h
            obtain ⟨first, hfirst, rest, hrest, heq⟩ := h
            cases heq
            rw [List.zipWith_cons_cons, hfirst, ih hrest, List.map_cons]
  constructor
  · intro h
    exact ⟨by rw [← isSome_promoteAll?, h]; rfl, hzip h⟩
  · rintro ⟨happlies, hpromoted⟩
    rw [← isSome_promoteAll?] at happlies
    obtain ⟨promoted', h⟩ := Option.isSome_iff_exists.mp happlies
    have hsame : promoted'.map some = promoted.map some := (hzip h).symm.trans hpromoted
    rw [h, List.map_injective_iff.mpr (fun _ _ => Option.some.inj) hsame]

/-- The winners are the candidates that dominate. -/
theorem mem_winners_applicable {choice : Applicable} :
    choice ∈ winners cat args (applicable cat candidates args) ↔ Dominant cat candidates args choice := by
  rw [mem_winners_iff, mem_applicable, promoteAll?_eq_some_iff]
  constructor
  · rintro ⟨⟨hplace, happlies, hpromoted⟩, hbetter⟩
    refine ⟨hplace, happlies, hpromoted, fun i params hi hne hparams => ?_⟩
    obtain ⟨promoted, h⟩ := Option.isSome_iff_exists.mp ((isSome_promoteAll? params).trans hparams)
    exact hbetter ⟨i, params, promoted⟩ (mem_applicable.mpr ⟨hi, h⟩) hne
  · intro h
    refine ⟨⟨h.place, h.applies, h.promoted⟩, fun n hn hne => ?_⟩
    obtain ⟨hindex, hpromoted⟩ := mem_applicable.mp hn
    exact h.better n.index n.params hindex hne (promoteAll?_eq_some_iff.mp hpromoted).1

theorem length_applicable :
    (applicable cat candidates args).length = candidates.countP (applies cat args) := by
  have hzip : ∀ place : Nat, ((candidates.zipIdx place).filterMap (applied? cat args)).length =
      candidates.countP (applies cat args) := by
    induction candidates with
    | nil => exact fun _ => rfl
    | cons params candidates ih =>
        intro place
        rw [List.zipIdx_cons, List.filterMap_cons, List.countP_cons, ← isSome_promoteAll?, applied?]
        cases promoteAll? cat args params with
        | none => simpa using ih (place + 1)
        | some promoted => simpa using ih (place + 1)
  exact hzip 0

/-- A resolution goes by the candidate that dominates and, if there is none, by the number of those that can be
applied. -/
theorem resolve_cases (cat : Catalog) (candidates : List (List Ty)) (args : List Expr) :
    (∃ choice, Dominant cat candidates args choice ∧ resolve cat candidates args = .found choice) ∨
    (∀ choice, ¬Dominant cat candidates args choice) ∧
      ((candidates.countP (applies cat args) = 0 ∧ resolve cat candidates args = .noMatch) ∨
        (candidates.countP (applies cat args) ≠ 0 ∧
          resolve cat candidates args = .ambiguous (candidates.countP (applies cat args)))) := by
  have hone : (winners cat args (applicable cat candidates args)).length ≤ 1 := length_winners_le_one
  cases hwinners : winners cat args (applicable cat candidates args) with
  | cons choice rest =>
      rw [hwinners, List.length_cons] at hone
      obtain rfl : rest = [] := List.eq_nil_of_length_eq_zero (by omega)
      have hdominant := mem_winners_applicable.mp (hwinners ▸ List.mem_singleton_self choice)
      exact Or.inl ⟨choice, hdominant, by simp only [resolve, hwinners]⟩
  | nil =>
      refine Or.inr ⟨fun choice hdominant => ?_, ?_⟩
      · have hmem := mem_winners_applicable.mpr hdominant
        rw [hwinners] at hmem
        cases hmem
      · rw [← length_applicable]
        by_cases hempty : applicable cat candidates args = []
        · exact Or.inl ⟨by rw [hempty]; rfl, by rw [resolve, hwinners, hempty]; rfl⟩
        · refine Or.inr ⟨fun hzero => hempty (List.eq_nil_of_length_eq_zero hzero), ?_⟩
          simp [resolve, hwinners, hempty]

/-- Only one candidate can dominate. -/
theorem Dominant.unique {m n : Applicable} (hm : Dominant cat candidates args m)
    (hn : Dominant cat candidates args n) : m = n := by
  have hone : (winners cat args (applicable cat candidates args)).length ≤ 1 := length_winners_le_one
  have hm := mem_winners_applicable.mpr hm
  have hn := mem_winners_applicable.mpr hn
  obtain ⟨choice, hwinners⟩ := List.length_eq_one_iff.mp
    (Nat.le_antisymm hone (List.length_pos_of_mem hm))
  rw [hwinners, List.mem_singleton] at hm hn
  rw [hm, hn]

theorem resolve_eq_found_iff {choice : Applicable} :
    resolve cat candidates args = .found choice ↔ Dominant cat candidates args choice := by
  constructor
  · exact fun h => mem_winners_applicable.mp (mem_winners h)
  · intro h
    rcases resolve_cases cat candidates args with ⟨other, hother, hfound⟩ | ⟨hnone, -⟩
    · rw [hfound, hother.unique h]
    · exact absurd h (hnone choice)

/-! ### Other orders of the candidates -/

/-- Outcomes that differ in the place of the choice at most. -/
def Renamed : Resolution → Resolution → Prop
  | .noMatch, .noMatch => True
  | .found m, .found n => m.params = n.params ∧ m.args = n.args
  | .ambiguous m, .ambiguous n => m = n
  | _, _ => False

/-- The candidate at a place is better than all others. -/
theorem forall_better_iff {i : Nat} {params : List Ty} :
    (∀ j other, candidates[j]? = some other → j ≠ i → applies cat args other → isBetter cat args params other) ↔
      ∀ other ∈ (candidates.eraseIdx i).filter (applies cat args), isBetter cat args params other := by
  constructor
  · intro h other hother
    obtain ⟨hmem, happlies⟩ := List.mem_filter.mp hother
    obtain ⟨j, hne, hj⟩ := List.mem_eraseIdx_iff_getElem?.mp hmem
    exact h j other hj hne happlies
  · intro h j other hj hne happlies
    exact h other (List.mem_filter.mpr ⟨List.mem_eraseIdx_iff_getElem?.mpr ⟨j, hne, hj⟩, happlies⟩)

theorem perm_filter_eraseIdx {i : Nat} {params : List Ty} (hi : candidates[i]? = some params)
    (happlies : applies cat args params) :
    (candidates.filter (applies cat args)).Perm
      (params :: (candidates.eraseIdx i).filter (applies cat args)) := by
  obtain ⟨hlt, rfl⟩ := List.getElem?_eq_some_iff.mp hi
  have hperm := (List.getElem_cons_eraseIdx_perm hlt).filter (applies cat args)
  rw [List.filter_cons, if_pos happlies] at hperm
  exact hperm.symm

/-- A candidate that dominates does so among all lists with the same applicable candidates, at its place there. -/
theorem Dominant.transfer {others : List (List Ty)} {choice : Applicable} (h : Dominant cat candidates args choice)
    (hperm : (candidates.filter (Overload.applies cat args)).Perm (others.filter (Overload.applies cat args))) :
    ∃ i, Dominant cat others args ⟨i, choice.params, choice.args⟩ := by
  have hmem : choice.params ∈ others.filter (Overload.applies cat args) :=
    hperm.subset (List.mem_filter.mpr ⟨List.mem_of_getElem? h.place, h.applies⟩)
  obtain ⟨i, hi⟩ := List.mem_iff_getElem?.mp (List.mem_filter.mp hmem).1
  have hrest := ((perm_filter_eraseIdx h.place h.applies).symm.trans hperm).trans
    (perm_filter_eraseIdx hi h.applies)
  refine ⟨i, hi, h.applies, h.promoted, forall_better_iff.mpr fun other hother => ?_⟩
  exact forall_better_iff.mp h.better other (hrest.cons_inv.symm.subset hother)

/-- Lists with the same applicable candidates, in whatever order, are resolved alike. -/
theorem renamed_of_perm {others : List (List Ty)}
    (hperm : (candidates.filter (applies cat args)).Perm (others.filter (applies cat args))) :
    Renamed (resolve cat candidates args) (resolve cat others args) := by
  have hcount : candidates.countP (applies cat args) = others.countP (applies cat args) := by
    rw [List.countP_eq_length_filter, List.countP_eq_length_filter, hperm.length_eq]
  rcases resolve_cases cat candidates args with ⟨choice, hdominant, hfound⟩ | ⟨hnone, hrest⟩
  · obtain ⟨i, htransferred⟩ := hdominant.transfer hperm
    rw [hfound, resolve_eq_found_iff.mpr htransferred]
    exact ⟨rfl, rfl⟩
  · have hnone' : ∀ choice, ¬Dominant cat others args choice := by
      intro choice hdominant
      obtain ⟨i, htransferred⟩ := hdominant.transfer hperm.symm
      exact hnone _ htransferred
    rcases resolve_cases cat others args with ⟨choice, hdominant, -⟩ | ⟨-, hrest'⟩
    · exact absurd hdominant (hnone' choice)
    · rw [← hcount] at hrest'
      rcases hrest with ⟨hzero, hresolve⟩ | ⟨hpos, hresolve⟩
      · have hresolve' := (hrest'.resolve_right fun h => h.1 hzero).2
        rw [hresolve, hresolve']
        trivial
      · have hresolve' := (hrest'.resolve_left fun h => hpos h.1).2
        rw [hresolve, hresolve']
        rfl

/-- A resolution finds a candidate exactly if that one dominates, has no match exactly if no candidate can be
applied, and is otherwise undecided among all that can be. Candidates in another order, more or fewer of those that
cannot be applied: the place of the choice is all that changes. -/
theorem resolve_dominant (cat : Catalog) (candidates : List (List Ty)) (args : List Expr) :
    (resolve cat candidates args = .noMatch ↔ ∀ params ∈ candidates, applies cat args params = false) ∧
    (∀ choice, resolve cat candidates args = .found choice ↔ Dominant cat candidates args choice) ∧
    (∀ n, resolve cat candidates args = .ambiguous n ↔
      (∃ params ∈ candidates, applies cat args params) ∧ (∀ choice, ¬Dominant cat candidates args choice) ∧
        n = candidates.countP (applies cat args)) ∧
    (winners cat args (applicable cat candidates args)).length ≤ 1 ∧
    ∀ others : List (List Ty),
      (candidates.filter (applies cat args)).Perm (others.filter (applies cat args)) →
      Renamed (resolve cat candidates args) (resolve cat others args) := by
  have hsome : (∃ params ∈ candidates, applies cat args params) ↔ candidates.countP (applies cat args) ≠ 0 := by
    rw [← List.countP_pos_iff, Nat.pos_iff_ne_zero]
  have hzero : candidates.countP (applies cat args) = 0 ↔ ∀ params ∈ candidates, applies cat args params = false := by
    simp only [List.countP_eq_zero, Bool.not_eq_true]
  refine ⟨?_, fun choice => resolve_eq_found_iff, fun n => ?_, length_winners_le_one, fun others => renamed_of_perm⟩
  · rw [← hzero]
    rcases resolve_cases cat candidates args with ⟨choice, hdominant, hfound⟩ | ⟨-, ⟨hcount, h⟩ | ⟨hcount, h⟩⟩
    · have hmem : choice.params ∈ candidates := List.mem_of_getElem? hdominant.place
      simpa [hfound] using hsome.mp ⟨choice.params, hmem, hdominant.applies⟩
    · simp [h, hcount]
    · simp [h, hcount]
  · rw [hsome]
    rcases resolve_cases cat candidates args with ⟨choice, hdominant, hfound⟩ | ⟨hnone, ⟨hcount, h⟩ | ⟨hcount, h⟩⟩
    · simp only [hfound, reduceCtorEq, false_iff]
      exact fun h => h.2.1 choice hdominant
    · simp [h, hcount]
    · simp [h, hcount, hnone, eq_comm]

/-- A short integer is rather widened to a longer one than made a fraction, whichever comes first. -/
theorem resolve_dominant_widening :
    let args : List Expr := [.param .int32 0]
    let candidates : List (List Ty) := [[.double], [.string], [.int64]]
    let others : List (List Ty) := [[.int64], [.int64, .int64], [.double], [.char]]
    (candidates.filter (applies .empty args)).Perm (others.filter (applies .empty args)) ∧
      resolve .empty candidates args = .found ⟨2, [.int64], [.convert .int64 false (.param .int32 0)]⟩ ∧
      Renamed (resolve .empty candidates args) (resolve .empty others args) := by
  intro args candidates others
  have hperm : (candidates.filter (applies .empty args)).Perm (others.filter (applies .empty args)) := by
    decide +kernel
  exact ⟨hperm, rfl, (resolve_dominant .empty candidates args).2.2.2.2 others hperm⟩

end Overload

end RowQuery
