import Mathlib.Data.List.Forall2
import RowQuery.Compile
import RowQuery.Evaluation

/-!
Which values are values of a type. A value conforms to a type if it is of that type's kind and everything
inside it conforms too: the fields of an object to the types its class declares, its items to the element
type, and so on down. The general type takes every value that is sound in itself. Values of a class conform
to the classes it extends, because a class lays out the fields it inherits first.
-/

namespace RowQuery

namespace Catalog

mutual

/-- Whether a value is one of a type. -/
def conforms (cat : Catalog) : Value → Ty → Bool
  | .null, t => t.admitsNull
  | .object c fields items, t =>
    (match t.underlying with
      | .object => true
      | .cls d => cat.isSubclass c d
      | _ => false) &&
    cat.conformAll fields ((cat.fields c).map (·.2)) &&
    (match cat.element? c with
      | some e => cat.conformEach items e
      | none => true)
  | .list items, t =>
    match t.underlying with
    | .object => cat.conformEach items .object
    | .list e => cat.conformEach items e
    | _ => false
  | .group key items, t =>
    match t.underlying with
    | .object => cat.conforms key .object && cat.conformEach items .object
    | .grouping k e => cat.conforms key k && cat.conformEach items e
    | _ => false
  | .boolean _, t => t.underlying = .object || t.underlying = .boolean
  | .char _, t => t.underlying = .object || t.underlying = .char
  | .string _, t => t.underlying = .object || t.underlying = .string
  | .int k _, t => t.underlying = .object || t.underlying = .int k
  | .single _, t => t.underlying = .object || t.underlying = .single
  | .double _, t => t.underlying = .object || t.underlying = .double
  | .decimal _, t => t.underlying = .object || t.underlying = .decimal
  | .dateTime _, t => t.underlying = .object || t.underlying = .dateTime
  | .timeSpan _, t => t.underlying = .object || t.underlying = .timeSpan
  | .enum e _, t => t.underlying = .object || t.underlying = .enum e

/-- Whether values are of given types, one for each. -/
def conformAll (cat : Catalog) : List Value → List Ty → Bool
  | [], [] => true
  | v :: vs, t :: ts => cat.conforms v t && cat.conformAll vs ts
  | _, _ => false

/-- Whether all values are of one type. -/
def conformEach (cat : Catalog) : List Value → Ty → Bool
  | [], _ => true
  | v :: vs, t => cat.conforms v t && cat.conformEach vs t

end

variable {cat : Catalog} {v : Value} {t : Ty}

theorem conformEach_iff {vs : List Value} :
    cat.conformEach vs t ↔ ∀ v ∈ vs, cat.conforms v t := by
  induction vs with
  | nil => simp [conformEach]
  | cons v vs ih => simp [conformEach, ih]

theorem conformAll_iff {vs : List Value} {ts : List Ty} :
    cat.conformAll vs ts ↔ List.Forall₂ (fun v t => cat.conforms v t) vs ts := by
  induction vs generalizing ts with
  | nil => cases ts <;> simp [conformAll]
  | cons v vs ih => cases ts <;> simp [conformAll, ih]

mutual

/-- Whatever conforms to some type conforms to the general one. -/
theorem conforms_object : ∀ {v : Value} {t : Ty}, cat.conforms v t →
    cat.conforms v .object
  | .object c fields items, t, h => by
      simp only [conforms, Bool.and_eq_true] at h ⊢
      exact ⟨⟨rfl, h.1.2⟩, h.2⟩
  | .list items, t, h => by
      simp only [conforms] at h ⊢
      split at h
      · exact h
      · exact conformEach_object h
      · simp at h
  | .group key items, t, h => by
      simp only [conforms] at h ⊢
      split at h
      · exact h
      · simp only [Bool.and_eq_true] at h
        simp only [Ty.underlying, Bool.and_eq_true]
        exact ⟨conforms_object h.1, conformEach_object h.2⟩
      · simp at h
  | .null, _, _ | .boolean _, _, _ | .char _, _, _ | .string _, _, _ | .int _ _, _, _
  | .single _, _, _ | .double _, _, _ | .decimal _, _, _ | .dateTime _, _, _ | .timeSpan _, _, _
  | .enum _ _, _, _ => rfl

theorem conformEach_object : ∀ {vs : List Value} {t : Ty}, cat.conformEach vs t →
    cat.conformEach vs .object
  | [], _, _ => rfl
  | v :: vs, t, h => by
      simp only [conformEach, Bool.and_eq_true] at h ⊢
      exact ⟨conforms_object h.1, conformEach_object h.2⟩

end

/-- For a present value only the type under a nullable form counts. -/
theorem conforms_congr {s : Ty} (hv : v.isNull = false) (h : s.underlying = t.underlying) :
    cat.conforms v s = cat.conforms v t := by
  cases v <;> simp_all [conforms, Value.isNull]

theorem conforms_of_nullable (hv : v.isNull = false) (h : cat.conforms v (.nullable t)) :
    cat.conforms v t := by
  by_cases ht : t.underlying = t
  · exact (conforms_congr (t := .nullable t) hv ht).trans h
  · cases t <;> cases v <;> simp_all [conforms, Value.isNull, Ty.underlying]

theorem conforms_null : cat.conforms .null t = t.admitsNull := by rw [conforms]

theorem isNull_eq_false (h : cat.conforms v t) (ht : t.admitsNull = false) : v.isNull = false := by
  cases v with
  | null =>
      rw [conforms_null, ht] at h
      cases h
  | _ => rfl

theorem conforms_boolean : cat.conforms v .boolean ↔ ∃ b, v = .boolean b := by
  cases v <;> simp [conforms, Ty.underlying, Ty.admitsNull, Ty.isNullable, Ty.isValueType]

theorem conforms_char : cat.conforms v .char ↔ ∃ c, v = .char c := by
  cases v <;> simp [conforms, Ty.underlying, Ty.admitsNull, Ty.isNullable, Ty.isValueType]

theorem conforms_string : cat.conforms v .string ↔ v = .null ∨ ∃ s, v = .string s := by
  cases v <;> simp [conforms, Ty.underlying, Ty.admitsNull, Ty.isNullable, Ty.isValueType]

theorem conforms_int {k : IntKind} : cat.conforms v (.int k) ↔ ∃ n, v = .int k n := by
  constructor
  · intro h
    cases v <;> simp [conforms, Ty.underlying, Ty.admitsNull, Ty.isNullable, Ty.isValueType] at h
    subst h
    exact ⟨_, rfl⟩
  · rintro ⟨n, rfl⟩
    simp [conforms, Ty.underlying]

theorem conforms_enum {e : EnumType} : cat.conforms v (.enum e) ↔ ∃ n, v = .enum e n := by
  constructor
  · intro h
    cases v <;> simp [conforms, Ty.underlying, Ty.admitsNull, Ty.isNullable, Ty.isValueType] at h
    subst h
    exact ⟨_, rfl⟩
  · rintro ⟨n, rfl⟩
    simp [conforms, Ty.underlying]

theorem conforms_single : cat.conforms v .single ↔ ∃ x, v = .single x := by
  cases v <;> simp [conforms, Ty.underlying, Ty.admitsNull, Ty.isNullable, Ty.isValueType]

theorem conforms_double : cat.conforms v .double ↔ ∃ x, v = .double x := by
  cases v <;> simp [conforms, Ty.underlying, Ty.admitsNull, Ty.isNullable, Ty.isValueType]

theorem conforms_decimal : cat.conforms v .decimal ↔ ∃ d, v = .decimal d := by
  cases v <;> simp [conforms, Ty.underlying, Ty.admitsNull, Ty.isNullable, Ty.isValueType]

theorem conforms_dateTime : cat.conforms v .dateTime ↔ ∃ d, v = .dateTime d := by
  cases v <;> simp [conforms, Ty.underlying, Ty.admitsNull, Ty.isNullable, Ty.isValueType]

theorem conforms_timeSpan : cat.conforms v .timeSpan ↔ ∃ d, v = .timeSpan d := by
  cases v <;> simp [conforms, Ty.underlying, Ty.admitsNull, Ty.isNullable, Ty.isValueType]

/-- What conforms to a nullable form is absent or conforms to the type under it. -/
theorem conforms_nullable (h : cat.conforms v (.nullable t)) : v = .null ∨ cat.conforms v t := by
  cases v with
  | null => exact Or.inl rfl
  | _ => exact Or.inr (conforms_of_nullable rfl h)

theorem conforms_toNullable (h : cat.conforms v t) (ht : t.isNullable = false) :
    cat.conforms v (.nullable t) := by
  cases v with
  | null => rfl
  | _ => exact (conforms_congr rfl (by cases t <;> simp_all [Ty.isNullable, Ty.underlying])).trans h

theorem conforms_list {e : Ty} (h : cat.conforms v (.list e)) :
    v = .null ∨ ∃ items, v = .list items ∧ ∀ item ∈ items, cat.conforms item e := by
  cases v <;> simp_all [conforms, Ty.underlying, conformEach_iff]

theorem conforms_grouping {k e : Ty} (h : cat.conforms v (.grouping k e)) :
    v = .null ∨ ∃ key items, v = .group key items ∧ cat.conforms key k ∧
      ∀ item ∈ items, cat.conforms item e := by
  cases v <;> simp_all [conforms, Ty.underlying, conformEach_iff]

/-! ### Hierarchies -/

/-- Every class extends only one that was declared before it. -/
def Layered : List ClassDecl → Prop
  | [] => True
  | d :: earlier =>
    (∀ id name, d.base = some (.declared id name) → id < earlier.length) ∧ Layered earlier

theorem lineageIn_head (decls : List ClassDecl) (c : Class) :
    ∃ above, lineageIn decls c = c :: above := by
  induction decls with
  | nil => exact ⟨[], rfl⟩
  | cons d earlier ih =>
      cases c with
      | declared id name =>
          rw [lineageIn]
          split
          · exact ⟨_, rfl⟩
          · exact ih
      | _ => exact ⟨[], rfl⟩

/-- A class that is extended was declared. -/
theorem mem_lineageIn {decls : List ClassDecl} (hdecls : Layered decls) {c d : Class}
    (h : d ∈ lineageIn decls c) : d = c ∨ ∀ id name, d = .declared id name → id < decls.length := by
  induction decls generalizing c with
  | nil => exact Or.inl (by simpa [lineageIn] using h)
  | cons decl earlier ih =>
      obtain ⟨hbase, hearlier⟩ := hdecls
      cases c with
      | declared id name =>
          rw [lineageIn] at h
          split at h
          · rcases List.mem_cons.mp h with rfl | h
            · exact Or.inl rfl
            · right
              rintro id' name' rfl
              rw [List.length_cons]
              cases hb : decl.base with
              | none => simp [hb] at h
              | some base =>
                  simp only [hb] at h
                  rcases ih hearlier h with rfl | hlt
                  · have := hbase id' name' hb
                    omega
                  · have := hlt id' name' rfl
                    omega
          · rcases ih hearlier h with rfl | hlt
            · exact Or.inl rfl
            · right
              intro id' name' hd
              have := hlt id' name' hd
              rw [List.length_cons]
              omega
      | _ => exact Or.inl (by simpa [lineageIn] using h)

theorem lineageIn_cons {decl : ClassDecl} {earlier : List ClassDecl} {c : Class}
    (h : ∀ id name, c = .declared id name → id ≠ earlier.length) :
    lineageIn (decl :: earlier) c = lineageIn earlier c := by
  cases c with
  | declared id name => rw [lineageIn, if_neg (h id name rfl)]
  | _ => cases earlier <;> rfl

theorem lineage_shape (cat : Catalog) (fields : Fields) : cat.lineage (.shape fields) = [.shape fields] := by
  unfold lineage
  cases cat.decls <;> rfl

/-- What a class extends is extended in the same way by all classes below it. -/
theorem lineageIn_suffix {decls : List ClassDecl} (hdecls : Layered decls) {c d : Class}
    (h : d ∈ lineageIn decls c) : lineageIn decls d <:+ lineageIn decls c := by
  induction decls generalizing c with
  | nil =>
      obtain rfl : d = c := by simpa [lineageIn] using h
      exact List.suffix_refl _
  | cons decl earlier ih =>
      obtain ⟨hbase, hearlier⟩ := hdecls
      by_cases hown : ∃ name, c = .declared earlier.length name
      · obtain ⟨name, rfl⟩ := hown
        rw [lineageIn, if_pos rfl] at h
        rcases List.mem_cons.mp h with rfl | habove
        · exact List.suffix_refl _
        · cases hb : decl.base with
          | none => simp [hb] at habove
          | some base =>
              simp only [hb] at habove
              have hd : ∀ id name, d = .declared id name → id ≠ earlier.length := by
                rintro id name rfl
                rcases mem_lineageIn hearlier habove with rfl | hlt
                · exact Nat.ne_of_lt (hbase id name hb)
                · exact Nat.ne_of_lt (hlt id name rfl)
              rw [lineageIn_cons hd, lineageIn, if_pos rfl]
              simp only [hb]
              exact (ih hearlier habove).trans (List.suffix_cons _ _)
      · have hc : ∀ id name, c = .declared id name → id ≠ earlier.length := by
          rintro id name rfl rfl
          exact hown ⟨name, rfl⟩
        rw [lineageIn_cons hc] at h ⊢
        have hd : ∀ id name, d = .declared id name → id ≠ earlier.length := by
          intro id name hd
          rcases mem_lineageIn hearlier h with rfl | hlt
          · exact hc id name hd
          · exact Nat.ne_of_lt (hlt id name hd)
        rw [lineageIn_cons hd]
        exact ih hearlier h

theorem mem_lineage_self (cat : Catalog) (c : Class) : c ∈ cat.lineage c := by
  obtain ⟨above, h⟩ := lineageIn_head cat.decls c
  rw [lineage, h]
  exact List.mem_cons_self

theorem isSubclass_iff {c d : Class} : cat.isSubclass c d ↔ d ∈ cat.lineage c := by
  rw [isSubclass, List.contains_iff_mem]

theorem isSubclass_refl (c : Class) : cat.isSubclass c c :=
  isSubclass_iff.mpr (cat.mem_lineage_self c)

theorem isSubclass_trans (hcat : Layered cat.decls) {c d e : Class} (hcd : cat.isSubclass c d)
    (hde : cat.isSubclass d e) : cat.isSubclass c e := by
  rw [isSubclass_iff] at *
  exact (lineageIn_suffix hcat hcd).subset hde

/-- The fields of a class are those it inherits and then its own. -/
theorem fields_eq (cat : Catalog) (c : Class) : ∃ inherited, cat.fields c = inherited ++ cat.ownFields c := by
  obtain ⟨above, h⟩ := lineageIn_head cat.decls c
  refine ⟨(above.reverse.map cat.ownFields).flatten, ?_⟩
  rw [fields, lineage, h, List.reverse_cons, List.map_append, List.flatten_append]
  simp

theorem fields_shape (cat : Catalog) (fields : Fields) : cat.fields (.shape fields) = fields.toList := by
  rw [Catalog.fields, lineage_shape]
  simp [ownFields]

theorem fields_ofFields (cat : Catalog) (fields : List (String × Ty)) : cat.fields (.ofFields fields) = fields := by
  rw [Class.ofFields, fields_shape, Fields.toList_ofList]

/-- A class keeps the positions of the fields it inherits. -/
theorem fields_prefix (hcat : Layered cat.decls) {c d : Class} (h : cat.isSubclass c d) :
    cat.fields d <+: cat.fields c := by
  obtain ⟨below, hbelow⟩ := lineageIn_suffix hcat (isSubclass_iff.mp h)
  rw [fields, fields, lineage, lineage, ← hbelow, List.reverse_append, List.map_append,
    List.flatten_append]
  exact List.prefix_append _ _

/-- The property of a field reads the position at which the field is laid out. -/
theorem mem_fieldProperties {c : Class} {p : Property} (h : p ∈ cat.fieldProperties c) :
    p.isStatic = false ∧ ∃ i, p.getter = .field i ∧ (cat.fields c)[i]? = some (p.name, p.ty) := by
  obtain ⟨⟨⟨name, ty⟩, i⟩, hmem, rfl⟩ := List.mem_map.mp h
  obtain ⟨inherited, hfields⟩ := cat.fields_eq c
  refine ⟨rfl, _, rfl, ?_⟩
  have hi : (cat.ownFields c)[i]? = some (name, ty) := by
    simpa using List.mem_zipIdx_iff_getElem?.mp hmem
  rw [hfields, List.length_append, Nat.add_sub_cancel, List.getElem?_append_right (by omega)]
  simpa using hi

/-- Only the constructors of a class itself make its objects. -/
theorem constructors_cls (cat : Catalog) (c : Class) : cat.constructors (.cls c) = (cat.members c).constructors := by
  obtain ⟨above, habove⟩ := lineageIn_head cat.decls c
  simp only [constructors, memberChain, declaredMembers, lineage, habove, List.map_cons, List.cons_append]

/-- The members of a type are predefined, or those of a class that its class extends. -/
theorem mem_declaredMembers {m : Members} (h : m ∈ cat.declaredMembers t) :
    (∃ c d, t = .cls c ∧ cat.isSubclass c d ∧ m = cat.members d) ∨ Predefined.ofType? t = some m := by
  unfold declaredMembers at h
  split at h
  · rename_i c
    obtain ⟨d, hd, rfl⟩ := List.mem_map.mp h
    exact Or.inl ⟨c, d, rfl, isSubclass_iff.mpr hd, rfl⟩
  · exact Or.inr (Option.mem_toList.mp h)

/-- Values stand for values of every type that theirs is assignable to. -/
theorem conforms_of_isAssignable (hcat : Layered cat.decls) {target source : Ty}
    (h : cat.isAssignable target source) (hv : cat.conforms v source) : cat.conforms v target := by
  unfold isAssignable at h
  split at h
  · exact conforms_object hv
  · rename_i d c
    cases v with
    | null => rfl
    | object e fields items =>
        simp only [conforms, Ty.underlying, Bool.and_eq_true] at hv ⊢
        exact ⟨⟨isSubclass_trans hcat hv.1.1 h, hv.1.2⟩, hv.2⟩
    | _ => simp [conforms, Ty.underlying] at hv
  · rw [beq_iff_eq.mp h]
    exact hv

end Catalog

end RowQuery
