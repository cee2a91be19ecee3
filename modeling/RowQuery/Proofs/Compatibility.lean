import Mathlib.Logic.Relation
import Mathlib.Order.Defs.Unbundled
import RowQuery.Proofs.Conformance
import RowQuery.Promotion

/-!
Compatibility as an order of types. Between well-formed types it comes about in one of four ways: everything is
compatible with the general type, a class with those it extends, every type with itself, and a value type with
one that is no narrower and admits absence if it does. Each way composes with the others, and only the same type
is compatible in both directions. A class extends another exactly if a chain of declared bases leads there, and
every such chain ends.
-/

namespace RowQuery

/-! ### Classes -/

namespace Catalog

variable {cat : Catalog}

/-- The class that a class is declared to extend. -/
def base? (cat : Catalog) (c : Class) : Option Class := (cat.decl? c).bind (·.base)

/-- The lineage of a class goes on with that of its base. -/
theorem lineage_eq (hcat : Layered cat.decls) (c : Class) :
    cat.lineage c = c :: ((cat.base? c).map cat.lineage).getD [] := by
  obtain ⟨decls⟩ := cat
  simp only [lineage] at hcat ⊢
  induction decls generalizing c with
  | nil => cases c <;> rfl
  | cons decl earlier ih =>
      obtain ⟨hbase, hearlier⟩ := hcat
      by_cases hown : ∃ name, c = .declared earlier.length name
      · obtain ⟨name, rfl⟩ := hown
        have hfound : base? ⟨decl :: earlier⟩ (.declared earlier.length name) = decl.base := by
          simp [base?, decl?, declIn]
        rw [hfound, lineageIn, if_pos rfl]
        cases hb : decl.base with
        | none => rfl
        | some base =>
            have hsame : lineageIn (decl :: earlier) base = lineageIn earlier base := by
              apply lineageIn_cons
              rintro id name rfl
              exact Nat.ne_of_lt (hbase id name hb)
            simp [lineage, hsame]
      · have hc : ∀ id name, c = .declared id name → id ≠ earlier.length := by
          rintro id name rfl rfl
          exact hown ⟨name, rfl⟩
        have hfound : base? ⟨decl :: earlier⟩ c = base? ⟨earlier⟩ c := by
          cases c with
          | declared id name => simp [base?, decl?, declIn, hc id name rfl]
          | _ => rfl
        have hih := ih c hearlier
        rw [lineageIn_cons hc, hih, hfound]
        cases hb : base? ⟨earlier⟩ c with
        | none => rfl
        | some base =>
            -- the base is one of the earlier classes, so the last declaration does not count for it
            have hmem : base ∈ lineageIn earlier c := by
              rw [hih, hb]
              exact List.mem_cons_of_mem _ (mem_lineage_self ⟨earlier⟩ base)
            have hsame : lineageIn (decl :: earlier) base = lineageIn earlier base := by
              apply lineageIn_cons
              rintro id name rfl
              rcases mem_lineageIn hearlier hmem with hbc | hlt
              · exact hc id name hbc.symm
              · exact Nat.ne_of_lt (hlt id name rfl)
            simp [lineage, hsame]

theorem length_lineage_base (hcat : Layered cat.decls) {c base : Class} (h : cat.base? c = some base) :
    (cat.lineage base).length < (cat.lineage c).length := by
  rw [lineage_eq hcat c, h]
  exact Nat.lt_succ_self _

/-- Every chain of bases ends. -/
theorem wellFounded_base (hcat : Layered cat.decls) : WellFounded fun base c => cat.base? c = some base :=
  Subrelation.wf (fun h => length_lineage_base hcat h) (measure fun c => (cat.lineage c).length).wf

/-- A class extends another exactly if a chain of bases leads there. -/
theorem isSubclass_iff_chain (hcat : Layered cat.decls) {c d : Class} :
    cat.isSubclass c d ↔ Relation.ReflTransGen (fun c base => cat.base? c = some base) c d := by
  constructor
  · intro h
    rw [isSubclass_iff] at h
    induction c using (wellFounded_base hcat).induction with
    | _ c ih =>
        rw [lineage_eq hcat c] at h
        rcases List.mem_cons.mp h with rfl | h
        · exact .refl
        · cases hb : cat.base? c with
          | none => simp [hb] at h
          | some base =>
              rw [hb] at h
              exact .head hb (ih base hb h)
  · intro h
    induction h using Relation.ReflTransGen.head_induction_on with
    | refl => exact isSubclass_refl d
    | @head c base hbase _ ih =>
        refine isSubclass_trans hcat (isSubclass_iff.mpr ?_) ih
        rw [lineage_eq hcat c, hbase]
        exact List.mem_cons_of_mem _ (cat.mem_lineage_self base)

theorem isSubclass_antisymm (hcat : Layered cat.decls) {c d : Class} (hcd : cat.isSubclass c d)
    (hdc : cat.isSubclass d c) : c = d := by
  have hd := lineageIn_suffix hcat (isSubclass_iff.mp hcd)
  have hc := lineageIn_suffix hcat (isSubclass_iff.mp hdc)
  have hsame : cat.lineage d = cat.lineage c := hd.eq_of_length_le hc.length_le
  obtain ⟨above, habove⟩ := lineageIn_head cat.decls c
  obtain ⟨above', habove'⟩ := lineageIn_head cat.decls d
  rw [lineage, lineage, habove, habove'] at hsame
  exact (List.cons.inj hsame).1.symm

theorem isSubclass_partialOrder (hcat : Layered cat.decls) :
    IsPartialOrder Class fun c d => cat.isSubclass c d where
  refl := isSubclass_refl
  trans _ _ _ := isSubclass_trans hcat
  antisymm _ _ := isSubclass_antisymm hcat

end Catalog

/-! ### Value types -/

theorem IntKind.within_trans {i j k : IntKind} (hij : i.within j) (hjk : j.within k) : i.within k := by
  rw [within_iff] at *
  omega

theorem IntKind.within_antisymm {j k : IntKind} (hjk : j.within k) (hkj : k.within j) : j = k := by
  revert hjk hkj
  cases j <;> cases k <;> decide

namespace Ty

/-- The ways in which a type widens to another. -/
theorem widens_iff {s t : Ty} : s.widens t ↔ s = t ∨ s = .single ∧ t = .double ∨
    ∃ k, s = .int k ∧ (t = .single ∨ t = .double ∨ t = .decimal ∨ ∃ j, t = .int j ∧ k.within j) := by
  constructor
  · intro h
    unfold widens at h
    split at h <;> simp_all
  · rintro (rfl | ⟨rfl, rfl⟩ | ⟨k, rfl, rfl | rfl | rfl | ⟨j, rfl, hwithin⟩⟩)
    · cases s <;> simp [widens, IntKind.within_refl]
    · rfl
    · rfl
    · rfl
    · rfl
    · exact hwithin

theorem widens_trans {s t u : Ty} (hst : s.widens t) (htu : t.widens u) : s.widens u := by
  rw [widens_iff] at hst htu ⊢
  rcases hst with rfl | ⟨rfl, rfl⟩ | ⟨k, rfl, ht⟩
  · exact htu
  · simp_all
  · rcases ht with rfl | rfl | rfl | ⟨j, rfl, hkj⟩
    · simp only [reduceCtorEq, true_and, false_and, exists_false, or_false] at htu
      rcases htu with rfl | rfl <;> simp
    · simp_all
    · simp_all
    · rcases htu with rfl | ⟨hsingle, -⟩ | ⟨i, hi, hu⟩
      · exact Or.inr (Or.inr ⟨k, rfl, Or.inr (Or.inr (Or.inr ⟨j, rfl, hkj⟩))⟩)
      · cases hsingle
      · cases hi
        refine Or.inr (Or.inr ⟨k, rfl, hu.imp_right (Or.imp_right (Or.imp_right ?_))⟩)
        rintro ⟨i, rfl, hji⟩
        exact ⟨i, rfl, IntKind.within_trans hkj hji⟩

theorem widens_antisymm {s t : Ty} (hst : s.widens t) (hts : t.widens s) : s = t := by
  rw [widens_iff] at hst hts
  rcases hst with rfl | ⟨rfl, rfl⟩ | ⟨k, rfl, ht⟩
  · rfl
  · simp at hts
  · rcases ht with rfl | rfl | rfl | ⟨j, rfl, hkj⟩
    · simp at hts
    · simp at hts
    · simp at hts
    · rcases hts with heq | ⟨hsingle, -⟩ | ⟨i, hi, hk⟩
      · exact heq.symm
      · cases hsingle
      · cases hi
        simp only [reduceCtorEq, Ty.int.injEq, false_or, exists_eq_left'] at hk
        rw [IntKind.within_antisymm hkj hk]

/-- A type in which every nullable form is that of a value type that is not nullable itself. -/
def isWellFormed : Ty → Bool
  | .nullable inner => inner.isValueType && !inner.isNullable
  | .list element => element.isWellFormed
  | .grouping key element => key.isWellFormed && element.isWellFormed
  | _ => true

theorem eq_of_underlying_eq {s t : Ty} (hunder : s.underlying = t.underlying) (hs : s.isNullable = t.isNullable) :
    s = t := by
  cases s <;> cases t <;> simp_all [underlying, isNullable]

end Ty

/-! ### All types -/

/-- The ways in which a type is compatible with another. -/
inductive Compatible (cat : Catalog) : Ty → Ty → Prop
  | general (s : Ty) : Compatible cat s .object
  | subclass {c d : Class} (h : cat.isSubclass c d) : Compatible cat (.cls c) (.cls d)
  | same (t : Ty) : Compatible cat t t
  | value {s t : Ty} (hs : s.isValueType) (ht : t.isValueType) (hnull : s.isNullable → t.isNullable)
      (hwidens : s.underlying.widens t.underlying) : Compatible cat s t

namespace Compatible

variable {cat : Catalog} {s t u : Ty}

theorem trans (hcat : Catalog.Layered cat.decls) (hst : Compatible cat s t) (htu : Compatible cat t u) :
    Compatible cat s u := by
  cases htu with
  | general => exact .general s
  | same => exact hst
  | subclass h =>
      cases hst with
      | subclass h' => exact .subclass (Catalog.isSubclass_trans hcat h' h)
      | same => exact .subclass h
      | value _ ht => cases ht
  | value ht hu hnull hwidens =>
      cases hst with
      | general => cases ht
      | subclass => cases ht
      | same => exact .value ht hu hnull hwidens
      | value hs _ hnull' hwidens' =>
          exact .value hs hu (fun h => hnull (hnull' h)) (Ty.widens_trans hwidens' hwidens)

theorem antisymm (hcat : Catalog.Layered cat.decls) (hst : Compatible cat s t) (hts : Compatible cat t s) :
    s = t := by
  cases hst with
  | same => rfl
  | general =>
      cases hts with
      | general => rfl
      | same => rfl
      | value hobject => cases hobject
  | subclass h =>
      cases hts with
      | subclass h' => rw [Catalog.isSubclass_antisymm hcat h h']
      | same => rfl
      | value hcls => cases hcls
  | value hs ht hnull hwidens =>
      cases hts with
      | general => cases hs
      | subclass => cases hs
      | same => rfl
      | value _ _ hnull' hwidens' =>
          exact Ty.eq_of_underlying_eq (Ty.widens_antisymm hwidens hwidens') (Bool.eq_iff_iff.mpr ⟨hnull, hnull'⟩)

end Compatible

namespace Catalog

variable {cat : Catalog} {s t : Ty}

/-- What widens to the type under a well-formed value type is a value type. -/
theorem isValueType_of_widens (ht : t.isWellFormed) (hvalue : t.isValueType) (h : s.underlying.widens t.underlying)
    (hs : s.isNullable = false) : s.isValueType := by
  have hunder : t.underlying.isValueType := by
    cases t with
    | nullable inner => exact (Bool.and_eq_true_iff.mp ht).1
    | _ => exact hvalue
  have hself : s.underlying = s := by cases s <;> simp_all [Ty.isNullable, Ty.underlying]
  rw [hself, Ty.widens_iff] at h
  rcases h with heq | ⟨rfl, -⟩ | ⟨k, rfl, -⟩
  · rw [heq]
    exact hunder
  · rfl
  · rfl

theorem isCompatible_iff (ht : t.isWellFormed) : cat.isCompatible s t ↔ Compatible cat s t := by
  constructor
  · intro h
    by_cases hst : s = t
    · rw [hst]
      exact .same t
    rw [isCompatible, if_neg hst] at h
    by_cases hvalue : t.isValueType
    · simp only [hvalue, Bool.not_true, Bool.false_eq_true, if_false] at h
      split at h
      · cases h
      · rename_i hnull
        have hnull' : s.isNullable → t.isNullable := by simpa using hnull
        refine .value ?_ hvalue hnull' h
        cases hs : s.isNullable with
        | true => cases s <;> simp_all [Ty.isNullable, Ty.isValueType]
        | false => exact isValueType_of_widens ht hvalue h hs
    · rw [if_pos (by simpa using hvalue)] at h
      unfold isAssignable at h
      split at h
      · exact .general s
      · exact .subclass h
      · exact absurd (beq_iff_eq.mp h).symm hst
  · rintro (_ | h | _ | ⟨hs, ht, hnull, hwidens⟩)
    · rw [isCompatible]
      split <;> rfl
    · rw [isCompatible]
      split
      · rfl
      · exact h
    · rw [isCompatible, if_pos rfl]
    · rw [isCompatible]
      split
      · rfl
      · have hnarrows : ¬(s.isNullable && !t.isNullable) = true := by simpa using hnull
        simpa [ht, hnarrows] using hwidens

/-- Compatibility is a partial order of the well-formed types. Among classes it is extension, which is a partial
order too and follows chains of bases, all of which end. -/
theorem isCompatible_partialOrder {cat : Catalog} (hcat : Layered cat.decls) :
    IsPartialOrder {t : Ty // t.isWellFormed} (fun s t => cat.isCompatible s t) ∧
    (∀ c d, cat.isCompatible (.cls c) (.cls d) = cat.isSubclass c d) ∧
    IsPartialOrder Class (fun c d => cat.isSubclass c d) ∧
    (∀ c d, cat.isSubclass c d ↔ Relation.ReflTransGen (fun c base => cat.base? c = some base) c d) ∧
    WellFounded fun base c => cat.base? c = some base := by
  refine ⟨?_, fun c d => ?_, isSubclass_partialOrder hcat, fun c d => isSubclass_iff_chain hcat,
    wellFounded_base hcat⟩
  · have hiff : ∀ s t : {t : Ty // t.isWellFormed}, cat.isCompatible s t ↔ Compatible cat s t :=
      fun s t => isCompatible_iff t.2
    refine { refl := fun t => ?_, trans := fun s t u hst htu => ?_, antisymm := fun s t hst hts => ?_ }
    · exact (hiff t t).mpr (.same t)
    · exact (hiff s u).mpr (((hiff s t).mp hst).trans hcat ((hiff t u).mp htu))
    · exact Subtype.ext (((hiff s t).mp hst).antisymm hcat ((hiff t s).mp hts))
  · rw [isCompatible]
    split
    · rename_i heq
      cases heq
      rw [isSubclass_refl]
    · rfl

/-- A catalog with a class, one that extends it, and one that extends that one. -/
def figures : Catalog :=
  ⟨[⟨"Square", some (.declared 1 "Polygon"), [], [], [], [], [], none⟩,
    ⟨"Polygon", some (.declared 0 "Figure"), [], [], [], [], [], none⟩,
    ⟨"Figure", none, [], [], [], [], [], none⟩]⟩

theorem figures_layered : Layered figures.decls := ⟨by simp, by simp, by simp, trivial⟩

/-- Squares are figures, by way of polygons, and figures are no squares. -/
theorem isCompatible_partialOrder_figures :
    Layered figures.decls ∧
      IsPartialOrder {t : Ty // t.isWellFormed} (fun s t => figures.isCompatible s t) ∧
      figures.isCompatible (.cls (.declared 2 "Square")) (.cls (.declared 0 "Figure")) ∧
      ¬figures.isCompatible (.cls (.declared 0 "Figure")) (.cls (.declared 2 "Square")) := by
  obtain ⟨hpartial, hclasses, -⟩ := isCompatible_partialOrder figures_layered
  refine ⟨figures_layered, hpartial, ?_, ?_⟩
  · rw [hclasses]
    decide
  · rw [hclasses]
    decide

end Catalog

end RowQuery
