import Mathlib.Data.List.Nodup
import RowQuery.Proofs.DataText
import RowQuery.Proofs.NameFolding
import RowQuery.Proofs.QuerySteps
import RowQuery.RowData

/-!
Rows that are written and read again. A row that was read from data of a type can be written as data of that
type, and reading that gives the same row. This needs that the written form of each value inside the row still
says all about it: there are no binary fractions and no values without a type of their own, and an enumeration
has a name for the value.
-/

namespace RowQuery

/-! ### Types and values inside others -/

/-- A type inside another one: the type itself, or one inside its underlying type, its items or its fields. -/
inductive Catalog.Contains (cat : Catalog) : Ty → Ty → Prop
  | self (t : Ty) : cat.Contains t t
  | nullable {t u : Ty} (h : cat.Contains t u) : cat.Contains (.nullable t) u
  | list {t u : Ty} (h : cat.Contains t u) : cat.Contains (.list t) u
  | field {c : Class} {name : String} {t u : Ty} (hfield : (name, t) ∈ cat.fields c) (h : cat.Contains t u) :
      cat.Contains (.cls c) u

mutual

/-- The values inside a value, itself included. -/
def Value.parts : Value → List Value
  | .list items => .list items :: partsAll items
  | .object c fields items => .object c fields items :: (partsAll fields ++ partsAll items)
  | .group key items => .group key items :: (key.parts ++ partsAll items)
  | v => [v]

def Value.partsAll : List Value → List Value
  | [] => []
  | v :: vs => v.parts ++ partsAll vs

end

theorem Value.self_mem_parts (v : Value) : v ∈ v.parts := by
  cases v <;> simp [parts]

theorem Value.mem_partsAll {w : Value} {vs : List Value} : w ∈ partsAll vs ↔ ∃ v ∈ vs, w ∈ v.parts := by
  induction vs with
  | nil => simp [partsAll]
  | cons v vs ih => simp [partsAll, ih]

theorem Value.allToJson_eq (cat : Catalog) (vs : List Value) : allToJson cat vs = vs.map (toJson cat) := by
  induction vs with
  | nil => rfl
  | cons v vs ih => rw [allToJson, ih, List.map_cons]

/-- A value whose written form says which one it is: a value of an enumeration is one that some name stands for,
and a zero has no sign. -/
def Value.Legible : Value → Prop
  | .enum e n => ∃ name, e.valueOf? name = some n
  | .decimal d => d.negative → d.mantissa ≠ 0
  | _ => True

/-- A value that a name stands for is that of a member whose own name stands for it. -/
theorem EnumType.exists_member {e : EnumType} {n : Word .int64} {name : String} (h : e.valueOf? name = some n) :
    ∃ before shown after, e.members = before ++ (shown, n) :: after ∧ e.valueOf? shown = some n := by
  obtain ⟨⟨shown, _⟩, hfind, rfl⟩ := Option.map_eq_some_iff.mp h
  obtain ⟨hsame, before, after, hmembers, hbefore⟩ := List.find?_eq_some_iff_append.mp hfind
  have hfold : Text.fold shown = Text.fold name := Text.fold_eq_iff.mpr (beq_iff_eq.mp hsame)
  refine ⟨before, shown, after, hmembers, Option.map_eq_some_iff.mpr ⟨_, ?_, rfl⟩⟩
  refine List.find?_eq_some_iff_append.mpr ⟨by simp [Text.sameName], before, after, hmembers, fun m hm => ?_⟩
  simp only [Text.sameName_right hfold]
  exact hbefore m hm

theorem EnumType.exists_member_iff {e : EnumType} {n : Word .int64} :
    (∃ m ∈ e.members, e.valueOf? m.1 = some n) ↔ ∃ name, e.valueOf? name = some n := by
  constructor
  · rintro ⟨m, -, hm⟩
    exact ⟨m.1, hm⟩
  · rintro ⟨name, h⟩
    obtain ⟨before, shown, after, hmembers, hshown⟩ := exists_member h
    exact ⟨(shown, n), by simp [hmembers], hshown⟩

instance Value.decidableLegible : (v : Value) → Decidable v.Legible
  | .enum _ _ => decidable_of_iff _ EnumType.exists_member_iff
  | .decimal d => inferInstanceAs (Decidable (d.negative → d.mantissa ≠ 0))
  | .null | .boolean _ | .char _ | .string _ | .int _ _ | .single _ | .double _ | .dateTime _ | .timeSpan _
  | .object _ _ _ | .list _ | .group _ _ => inferInstanceAs (Decidable True)

/-- A type whose values are written as data of the same type: those of an enumeration differ, and fields of the
same name have the same type. -/
def Catalog.Legible (cat : Catalog) : Ty → Prop
  | .object | .single | .double | .timeSpan => False
  | .enum e => (e.members.map (·.2)).Nodup
  | .cls c => ∀ f ∈ cat.fields c, ∀ g ∈ cat.fields c, f.1 = g.1 → f.2 = g.2
  | _ => True

/-- A type with nothing but such types inside. -/
def Catalog.Writable (cat : Catalog) (ty : Ty) : Prop := ∀ t, cat.Contains ty t → cat.Legible t

namespace Catalog.Writable

variable {cat : Catalog} {ty : Ty}

theorem item (h : cat.Writable (.list ty)) : cat.Writable ty := fun t ht => h t (.list ht)

theorem field {c : Class} {name : String} (h : cat.Writable (.cls c)) (hfield : (name, ty) ∈ cat.fields c) :
    cat.Writable ty := fun t ht => h t (.field hfield ht)

theorem core (h : cat.Writable ty) : cat.Writable (Json.core ty) := by
  fun_induction Json.core ty with
  | case1 t ih => exact ih fun u hu => h u (.nullable hu)
  | case2 t _ => exact h

end Catalog.Writable

/-! ### Names -/

/-- The name shown for a value that some name stands for stands for it. -/
theorem EnumType.valueOf?_nameOf? {e : EnumType} {n : Word .int64} {name : String}
    (hvalues : (e.members.map (·.2)).Nodup) (h : e.valueOf? name = some n) :
    ∃ shown, e.nameOf? n = some shown ∧ e.valueOf? shown = some n := by
  obtain ⟨before, shown, after, hmembers, hshown⟩ := exists_member h
  refine ⟨shown, Option.map_eq_some_iff.mpr ⟨(shown, n), ?_, rfl⟩, hshown⟩
  refine List.find?_eq_some_iff_append.mpr ⟨by simp, before, after, hmembers, fun m hm => ?_⟩
  rw [hmembers, List.map_append, List.map_cons] at hvalues
  have hne := (List.nodup_append.mp hvalues).2.2 m.2 (List.mem_map_of_mem hm) _ List.mem_cons_self
  simpa using hne

namespace Named

variable {α : Type}

theorem lookup_entry (name other : String) (a : α) (rest : List (String × α)) :
    ((name, a) :: rest).lookup other = if other = name then some a else rest.lookup other := by
  by_cases h : other = name
  · simp [h]
  · simp [List.lookup_cons, h, beq_eq_false_iff_ne.mpr h]

theorem lookup_put (name other : String) (a : α) (placed : List (String × α)) :
    (put name a placed).lookup other = if other = name then some a else placed.lookup other := by
  induction placed with
  | nil => rw [put, lookup_entry]
  | cons entry placed ih =>
      obtain ⟨n, b⟩ := entry
      rw [put]
      split_ifs with heq hlt hother hother hother
      all_goals simp_all [lookup_entry]

theorem ofList_concat (things : List (String × α)) (name : String) (a : α) :
    ofList (things ++ [(name, a)]) = put name a (ofList things) := by
  rw [ofList, List.foldl_append]
  rfl

/-- A thing is found if all things of its name are equal. -/
theorem lookup_ofList {things : List (String × α)} {name : String} {a : α} (h : (name, a) ∈ things)
    (honly : ∀ b, (name, b) ∈ things → b = a) : (ofList things).lookup name = some a := by
  induction things using List.reverseRecOn with
  | nil => exact absurd h List.not_mem_nil
  | append_singleton things entry ih =>
      obtain ⟨n, b⟩ := entry
      rw [ofList_concat, lookup_put]
      split_ifs with hname
      · rw [honly b (by simp [hname])]
      · have hbefore : (name, a) ∈ things := by simpa [hname] using h
        exact ih hbefore fun b hb => honly b (List.mem_append_left _ hb)

end Named

/-! ### Simple values -/

namespace Json

variable {cat : Catalog} {ty t : Ty} {path : String} {j : Json} {v : Value}

theorem ofScalar_eq_ok : ofScalar t path j = .ok v ↔ j.scalar? t = some v := by
  rw [ofScalar]
  cases j.scalar? t <;> simp

/-- Data other than the absent value, lists and objects. -/
def IsSimple : Json → Prop
  | .bool _ | .int _ | .float _ | .string _ => True
  | _ => False

theorem toValue_of_simple (h : j.IsSimple) : j.toValue cat ty path = ofScalar (core ty) path j := by
  cases j with
  | bool | int | float | string => rw [toValue]
  | null | array | object => exact h.elim

theorem scalar?_toJson (ht : cat.Legible t) (hv : v.Legible) (h : j.scalar? t = some v) :
    (v.toJson cat).IsSimple ∧ (v.toJson cat).scalar? t = some v := by
  cases t with
  | object | single | double | timeSpan => exact ht.elim
  | boolean =>
      cases j <;> cases h
      exact ⟨trivial, rfl⟩
  | string =>
      cases j <;> cases h
      exact ⟨trivial, rfl⟩
  | char =>
      obtain ⟨c, rfl⟩ : ∃ c, v = .char c := by
        cases j with
        | string s =>
            simp only [scalar?] at h
            split at h <;> cases h
            exact ⟨_, rfl⟩
        | _ => cases h
      exact ⟨trivial, by simp [Value.toJson, scalar?]⟩
  | int k =>
      obtain ⟨w, rfl⟩ : ∃ w, v = .int k w := by
        cases j with
        | int n =>
            obtain ⟨w, -, rfl⟩ := Option.map_eq_some_iff.mp h
            exact ⟨w, rfl⟩
        | _ => cases h
      refine ⟨trivial, ?_⟩
      rw [Value.toJson, scalar?, Word.ofInt?, dif_pos w.holds]
      rfl
  | decimal =>
      obtain ⟨d, -, rfl⟩ := Option.map_eq_some_iff.mp h
      refine ⟨trivial, ?_⟩
      rw [Value.toJson, scalar?, decimalText?, Option.bind_some, Decimal.readAny?_text hv]
      rfl
  | dateTime =>
      obtain ⟨s, m, hm, rfl⟩ : ∃ s m, DateTime.read? s = some m ∧ v = .dateTime m := by
        cases j with
        | string s =>
            obtain ⟨m, hm, rfl⟩ := Option.map_eq_some_iff.mp h
            exact ⟨s, m, hm, rfl⟩
        | _ => cases h
      refine ⟨trivial, ?_⟩
      rw [Value.toJson, scalar?, DateTime.read?_dataText hm]
      rfl
  | enum e =>
      obtain ⟨n, rfl⟩ : ∃ n, v = .enum e n := by
        cases j with
        | string s =>
            obtain ⟨n, -, rfl⟩ := Option.map_eq_some_iff.mp h
            exact ⟨n, rfl⟩
        | int m =>
            obtain ⟨n, -, rfl⟩ := Option.map_eq_some_iff.mp h
            exact ⟨n, rfl⟩
        | _ => cases h
      obtain ⟨name, hname⟩ := hv
      obtain ⟨shown, hshown, hvalue⟩ := EnumType.valueOf?_nameOf? ht hname
      refine ⟨trivial, ?_⟩
      rw [Value.toJson, scalar?, Value.text, hshown, Option.getD_some, hvalue]
      rfl
  | nullable | list | grouping | cls => cases h

theorem ofScalar_toJson (hty : cat.Writable ty) (hv : v.Legible) (h : ofScalar (core ty) path j = .ok v) :
    (v.toJson cat).toValue cat ty path = .ok v := by
  obtain ⟨hsimple, hscalar⟩ := scalar?_toJson (hty.core _ (.self _)) hv (ofScalar_eq_ok.mp h)
  rw [toValue_of_simple hsimple]
  exact ofScalar_eq_ok.mpr hscalar

theorem simple_toJson (hty : cat.Writable ty) (hv : ∀ w ∈ v.parts, w.Legible)
    (h : j.toValue cat ty path = .ok v) (hj : j.IsSimple) : (v.toJson cat).toValue cat ty path = .ok v := by
  rw [toValue_of_simple hj] at h
  exact ofScalar_toJson hty (hv v v.self_mem_parts) h

theorem absent_toJson (h : absent ty path = .ok v) : (v.toJson cat).toValue cat ty path = .ok v := by
  have hnull : v = .null := by
    rw [absent] at h
    split at h <;> cases h
    rfl
  rw [hnull, Value.toJson, toValue, h, hnull]

theorem fieldValue_of_lookup {name : String} {fields : List (String × Json)} (h : fields.lookup name = some j) :
    fieldValue cat name ty path fields = j.toValue cat ty path := by
  induction fields with
  | nil => cases h
  | cons entry fields ih =>
      obtain ⟨n, k⟩ := entry
      rw [Named.lookup_entry] at h
      rw [fieldValue]
      by_cases hname : name = n
      · rw [if_pos hname] at h
        cases h
        rw [if_pos hname.symm]
      · rw [if_neg hname] at h
        rw [if_neg (Ne.symm hname), ih h]

/-! ### Lists and objects -/

/-- The fields of an object are found again in what is written for it. -/
theorem fieldValues_toJson {c : Class} {vs : List Value} {fields : List (String × Json)}
    (hc : cat.Legible (.cls c))
    (hread : List.Forall₂ (fun f v => fieldValue cat f.1 f.2 (path ++ "." ++ f.1) fields = .ok v) (cat.fields c) vs)
    (hback : ∀ f ∈ cat.fields c, ∀ v ∈ vs, fieldValue cat f.1 f.2 (path ++ "." ++ f.1) fields = .ok v →
      (v.toJson cat).toValue cat f.2 (path ++ "." ++ f.1) = .ok v) :
    List.Forall₂ (fun f v => fieldValue cat f.1 f.2 (path ++ "." ++ f.1)
      (Named.ofList ((cat.layout c).zip (Value.allToJson cat vs))) = .ok v) (cat.fields c) vs := by
  refine List.forall₂_iff_zip.mpr ⟨hread.length_eq, fun {f v} hfv => ?_⟩
  have hvalue := List.forall₂_zip hread hfv
  have hzip : (cat.layout c).zip (Value.allToJson cat vs) =
      ((cat.fields c).zip vs).map (Prod.map (·.1) (Value.toJson cat)) := by
    rw [Value.allToJson_eq, Catalog.layout, List.zip_map]
  have hlookup : (Named.ofList ((cat.layout c).zip (Value.allToJson cat vs))).lookup f.1 =
      some (v.toJson cat) := by
    rw [hzip]
    refine Named.lookup_ofList (List.mem_map_of_mem hfv) fun b hb => ?_
    obtain ⟨⟨g, w⟩, hgw, heq⟩ := List.mem_map.mp hb
    obtain ⟨hname, rfl⟩ := Prod.mk.inj heq
    -- A field of the same name has the same type, so it was read from the same data.
    have hsame : g = f := Prod.ext hname (hc g (List.of_mem_zip hgw).1 f (List.of_mem_zip hfv).1 hname)
    subst hsame
    rw [Except.ok.inj ((List.forall₂_zip hread hgw).symm.trans hvalue)]
  rw [fieldValue_of_lookup hlookup]
  exact hback f (List.of_mem_zip hfv).1 v (List.of_mem_zip hfv).2 hvalue

mutual

/-- What was read from data as a value of a type is read again from the data that is written for it. -/
theorem toValue_toJson : ∀ (j : Json) {ty : Ty} {path : String} {v : Value}, cat.Writable ty →
    (∀ w ∈ v.parts, w.Legible) → j.toValue cat ty path = .ok v → (v.toJson cat).toValue cat ty path = .ok v
  | .null, ty, path, v, _, _, h => by
      rw [toValue] at h
      exact absent_toJson h
  | .array items, ty, path, v, hty, hv, h => by
      rw [toValue] at h
      split at h
      · rename_i element hcore
        obtain ⟨vs, hvs, heq⟩ := Typing.bind_eq_ok.mp h
        cases heq
        have hitem : cat.Writable element := (hcore ▸ hty.core : cat.Writable (.list element)).item
        have hitems := itemValues_toJson items hitem (fun v hmem w hw => hv w ?_) hvs
        · rw [Value.toJson, toValue, hcore]
          simp only [hitems]
          rfl
        · exact List.mem_cons_of_mem _ (Value.mem_partsAll.mpr ⟨v, hmem, hw⟩)
      · exact ofScalar_toJson hty (hv v v.self_mem_parts) h
  | .object fields, ty, path, v, hty, hv, h => by
      rw [toValue] at h
      split at h
      · rename_i c hcore
        obtain ⟨vs, hvs, heq⟩ := Typing.bind_eq_ok.mp h
        cases heq
        have hc : cat.Writable (.cls c) := hcore ▸ hty.core
        have hback := fieldValues_toJson (hc _ (.self _)) (mapM_eq_ok.mp hvs) fun f hf v hmem hread =>
          fieldValue_toJson fields (hc.field hf) (fun w hw => hv w ?_) hread
        · rw [Value.toJson, ofFields, toValue, hcore]
          simp only [mapM_eq_ok.mpr hback]
          rfl
        · exact List.mem_cons_of_mem _ (List.mem_append_left _ (Value.mem_partsAll.mpr ⟨v, hmem, hw⟩))
      · exact ofScalar_toJson hty (hv v v.self_mem_parts) h
  | .bool _, _, _, _, hty, hv, h | .int _, _, _, _, hty, hv, h | .float _, _, _, _, hty, hv, h
  | .string _, _, _, _, hty, hv, h => simple_toJson hty hv h trivial

theorem itemValues_toJson : ∀ (items : List Json) {ty : Ty} {path : String} {i : Nat} {vs : List Value},
    cat.Writable ty → (∀ v ∈ vs, ∀ w ∈ v.parts, w.Legible) → itemValues cat ty path i items = .ok vs →
      itemValues cat ty path i (Value.allToJson cat vs) = .ok vs
  | [], ty, path, i, vs, _, _, h => by
      cases h
      rfl
  | j :: items, ty, path, i, vs, hty, hvs, h => by
      rw [itemValues] at h
      obtain ⟨v, hv, h⟩ := Typing.bind_eq_ok.mp h
      obtain ⟨vs, hitems, heq⟩ := Typing.bind_eq_ok.mp h
      cases heq
      obtain ⟨hfirst, hlater⟩ := List.forall_mem_cons.mp hvs
      rw [Value.allToJson, itemValues, toValue_toJson j hty hfirst hv, itemValues_toJson items hty hlater hitems]
      rfl

theorem fieldValue_toJson : ∀ (fields : List (String × Json)) {name : String} {ty : Ty} {path : String} {v : Value},
    cat.Writable ty → (∀ w ∈ v.parts, w.Legible) → fieldValue cat name ty path fields = .ok v →
      (v.toJson cat).toValue cat ty path = .ok v
  | [], name, ty, path, v, _, _, h => by
      rw [fieldValue] at h
      exact absent_toJson h
  | (n, j) :: fields, name, ty, path, v, hty, hv, h => by
      rw [fieldValue] at h
      split at h
      · exact toValue_toJson j hty hv h
      · exact fieldValue_toJson fields hty hv h

end

end Json

/-! ### Schemas -/

/-- The first numbers stand for different members. -/
theorem Word.wrap_injOn {i j : Nat} (hi : i < 2 ^ 64) (hj : j < 2 ^ 64)
    (h : Word.wrap .int64 i = Word.wrap .int64 j) : i = j := by
  have hval : (Word.wrap .int64 i).val = (Word.wrap .int64 j).val := by rw [h]
  simp only [Word.wrap, IntKind.least, IntKind.modulus, IntKind.signed, IntKind.bits] at hval
  omega

theorem EnumType.nodup_ofNames (id : Nat) (name : String) {members : List String} (h : members.length ≤ 2 ^ 64) :
    ((ofNames id name members).members.map (·.2)).Nodup := by
  have hvalues : (ofNames id name members).members.map (·.2) =
      (List.range members.length).map fun i : Nat => Word.wrap .int64 i := by
    rw [List.range_eq_range', ← List.zipIdx_map_snd 0 members, ofNames, List.map_map, List.map_map]
    rfl
  rw [hvalues]
  refine List.Nodup.map_on (fun i hi j hj heq => Word.wrap_injOn ?_ ?_ heq) List.nodup_range
  · exact Nat.lt_of_lt_of_le (List.mem_range.mp hi) h
  · exact Nat.lt_of_lt_of_le (List.mem_range.mp hj) h

namespace Schema

/-- A type as schemas have it: the nullable form is not taken twice, enumerations have their members numbered, and
classes are declared. -/
def Regular : Ty → Prop
  | .nullable t => t.isNullable = false ∧ Regular t
  | .list t => Regular t
  | .enum e => ∃ id name members, e = .ofNames id name members
  | .cls c => ∃ id name, c = .declared id name
  | _ => True

theorem regular_predefined {name : String} {t : Ty} (h : Ty.predefined? name = some t) (hcls : ∀ c, t ≠ .cls c) :
    Regular t := by
  unfold Ty.predefined? at h
  split at h <;> cases h <;> first | trivial | exact absurd rfl (hcls _)

theorem regular_typeNamed {types : List Ty} (htypes : ∀ t ∈ types, Regular t) {cs : List Char} {ty : Ty}
    (h : typeNamed types cs = .ok ty) : Regular ty := by
  fun_induction typeNamed types cs generalizing ty with
  | case1 =>
      rename_i ih
      obtain ⟨inner, hinner, h⟩ := Typing.bind_eq_ok.mp h
      split at h <;> cases h
      rename_i hform
      exact ⟨by simpa using (Bool.and_eq_true_iff.mp hform).2, ih hinner⟩
  | case2 =>
      rename_i ih
      obtain ⟨element, helement, h⟩ := Typing.bind_eq_ok.mp h
      cases h
      exact (ih helement : Regular element)
  | case3 => cases h
  | case4 =>
      rename_i t hcls hpredefined
      cases h
      exact regular_predefined hpredefined hcls
  | case5 =>
      rename_i t hdeclared
      cases h
      exact htypes t (List.mem_of_find?_eq_some hdeclared)
  | case6 => cases h

/-- The declared types and the classes among them are as schemas have them. -/
structure RegularTypes (types : List Ty) (cat : Catalog) : Prop where
  types : ∀ t ∈ types, Regular t
  /-- A class has fields, and objects are made from values for them. -/
  plain : ∀ d ∈ cat.decls, d = .ofFields d.name d.fields
  fields : ∀ d ∈ cat.decls, ∀ f ∈ d.fields, Regular f.2

theorem RegularTypes.base {types : List Ty} {cat : Catalog} (h : RegularTypes types cat) :
    ∀ d ∈ cat.decls, d.base = none := by
  intro d hd
  rw [h.plain d hd]
  rfl

theorem RegularTypes.declareEnum {types types' : List Ty} {e : EnumEntry} (h : RegularTypes types .empty)
    (hdeclare : declareEnum types e = .ok types') : RegularTypes types' .empty := by
  unfold Schema.declareEnum at hdeclare
  split at hdeclare <;> cases hdeclare
  refine ⟨List.forall_mem_append.mpr ⟨h.types, List.forall_mem_singleton.mpr ⟨_, _, _, rfl⟩⟩, h.plain, h.fields⟩

theorem RegularTypes.declareClass {declared declared' : List Ty × Catalog} {c : ClassEntry}
    (h : RegularTypes declared.1 declared.2) (hdeclare : declareClass declared c = .ok declared') :
    RegularTypes declared'.1 declared'.2 := by
  obtain ⟨types, cat⟩ := declared
  obtain ⟨fields, hfields, hdeclare⟩ := Typing.bind_eq_ok.mp hdeclare
  simp only [Catalog.build, Catalog.declare, ClassDecl.ofCalls_ofFields] at hdeclare
  split at hdeclare <;> cases hdeclare
  have hregular : ∀ f ∈ fields, Regular f.2 := by
    refine forall_of_mapM_eq_ok (fun entry f hf => ?_) hfields
    obtain ⟨ty, hty, heq⟩ := Typing.bind_eq_ok.mp hf
    cases heq
    exact regular_typeNamed h.types hty
  refine ⟨?_, List.forall_mem_cons.mpr ⟨rfl, h.plain⟩, List.forall_mem_cons.mpr ⟨hregular, h.fields⟩⟩
  exact List.forall_mem_append.mpr ⟨h.types, List.forall_mem_singleton.mpr ⟨_, _, rfl⟩⟩

theorem regular_ofDocument {d : Document} {s : Schema} (h : ofDocument d = .ok s) :
    RegularTypes s.types s.catalog := by
  obtain ⟨types, htypes, h⟩ := Typing.bind_eq_ok.mp h
  obtain ⟨⟨types', cat⟩, hclasses, h⟩ := Typing.bind_eq_ok.mp h
  obtain ⟨element, -, h⟩ := Typing.bind_eq_ok.mp h
  cases h
  have henums : RegularTypes types .empty :=
    foldlM_keeps (I := fun types => RegularTypes types .empty) (fun _ _ _ _ hstep h => h.declareEnum hstep) htypes
      ⟨by simp, by simp [Catalog.empty], by simp [Catalog.empty]⟩
  exact foldlM_keeps (I := fun declared => RegularTypes declared.1 declared.2)
    (fun _ _ _ _ hstep h => h.declareClass hstep) hclasses henums

theorem regular_parse {text : String} {s : Schema} (h : parse text = .ok s) : RegularTypes s.types s.catalog := by
  unfold parse at h
  split at h
  · exact regular_ofDocument h
  · cases h

end Schema

namespace Catalog

variable {cat : Catalog}

theorem declIn_mem {decls : List ClassDecl} {id : Nat} {d : ClassDecl} (h : declIn decls id = some d) : d ∈ decls := by
  induction decls with
  | nil => cases h
  | cons e decls ih =>
      rw [declIn] at h
      split at h
      · cases h
        exact List.mem_cons_self
      · exact List.mem_cons_of_mem _ (ih h)

theorem lineageIn_of_base {decls : List ClassDecl} (h : ∀ d ∈ decls, d.base = none) (c : Class) :
    lineageIn decls c = [c] := by
  induction decls with
  | nil => rfl
  | cons d decls ih =>
      obtain ⟨hd, hdecls⟩ := List.forall_mem_cons.mp h
      cases c with
      | declared id name =>
          rw [lineageIn, hd, ih hdecls]
          split <;> rfl
      | _ => rfl

/-- Where no class extends another one, the fields of a class are those that it declares. -/
theorem fields_of_base (h : ∀ d ∈ cat.decls, d.base = none) (c : Class) : cat.fields c = cat.ownFields c := by
  rw [fields, lineage, lineageIn_of_base h]
  simp

theorem mem_fields_declared (h : ∀ d ∈ cat.decls, d.base = none) {id : Nat} {name : String} {f : String × Ty}
    (hf : f ∈ cat.fields (.declared id name)) : ∃ d ∈ cat.decls, f ∈ d.fields := by
  rw [fields_of_base h] at hf
  have hf : f ∈ ((cat.decl? (.declared id name)).map (·.fields)).getD [] := hf
  cases hd : cat.decl? (.declared id name) with
  | none =>
      rw [hd] at hf
      cases hf
  | some d =>
      rw [hd] at hf
      exact ⟨d, declIn_mem hd, hf⟩

theorem Contains.regular {types : List Ty} (hcat : Schema.RegularTypes types cat) {t u : Ty}
    (h : cat.Contains t u) (ht : Schema.Regular t) : Schema.Regular u := by
  induction h with
  | self => exact ht
  | nullable _ ih => exact ih ht.2
  | list _ ih => exact ih ht
  | field hfield _ ih =>
      obtain ⟨id, name, rfl⟩ := ht
      obtain ⟨d, hd, hf⟩ := mem_fields_declared hcat.base hfield
      exact ih (hcat.fields d hd _ hf)

end Catalog

/-- Data that is written for a row reads back as the same row. The type is one that a schema can name, without
binary fractions, spans and values of the general type inside; its enumerations have no more members than there
are words, and fields of one class with the same name have the same type. The values inside the row are such that
each value of an enumeration is one that some name stands for, and no zero has a sign. -/
theorem Schema.toValue_written {text name path : String} {s : Schema} {ty : Ty} {j : Json} {v : Value}
    (hs : parse text = .ok s) (hname : typeNamed s.types name.toList = .ok ty)
    (hplain : ∀ t ∈ [Ty.single, .double, .timeSpan, .object], ¬ s.catalog.Contains ty t)
    (hmembers : ∀ e, s.catalog.Contains ty (.enum e) → e.members.length ≤ 2 ^ 64)
    (hfields : ∀ c, s.catalog.Contains ty (.cls c) → ∀ f ∈ s.catalog.fields c, ∀ g ∈ s.catalog.fields c,
      f.1 = g.1 → f.2 = g.2)
    (hread : j.toValue s.catalog ty path = .ok v) (hv : ∀ w ∈ v.parts, w.Legible) :
    (v.toJson s.catalog).toValue s.catalog ty path = .ok v := by
  have hregular := regular_parse hs
  refine Json.toValue_toJson j (fun t ht => ?_) hv hread
  have hplain : ∀ u ∈ [Ty.single, .double, .timeSpan, .object], t ≠ u := by
    rintro u hu rfl
    exact hplain t hu ht
  cases t with
  | single | double | timeSpan | object => exact hplain _ (by simp) rfl
  | enum e =>
      obtain ⟨id, enumName, members, rfl⟩ := ht.regular hregular (regular_typeNamed hregular.types hname)
      refine EnumType.nodup_ofNames id enumName ?_
      simpa [EnumType.ofNames] using hmembers _ ht
  | cls c => exact hfields c ht
  | _ => trivial

/-- Orders with a nullable status that is given by a name in other letters, a list of prices and a moment. -/
theorem Schema.toValue_written_orders :
    let text := "element = \"Order\"\n[[enums]]\nname = \"Status\"\nmembers = [\"Open\", \"Closed\", \"CLOSED\"]\n" ++
      "[[classes]]\nname = \"Order\"\nfields = [\x7b name = \"Id\", type = \"Int32\" \x7d, " ++
      "\x7b name = \"Status\", type = \"Status?\" \x7d, \x7b name = \"Prices\", type = \"List<Decimal>\" \x7d, " ++
      "\x7b name = \"Placed\", type = \"DateTime\" \x7d]\n"
    let j : Json := .array [
      .object [("Id", .int 7), ("Placed", .string "2024-02-29 13:05:09"),
        ("Prices", .array [.string "1.50", .int (-3), .string "25e-1"]), ("Status", .string "closed")],
      .object [("Id", .int 8), ("Placed", .string "-0044-03-15"), ("Prices", .array [])]]
    ∃ s ty v, parse text = .ok s ∧ typeNamed s.types "List<Order>".toList = .ok ty ∧
      j.toValue s.catalog ty "$" = .ok v ∧ (v.toJson s.catalog).toValue s.catalog ty "$" = .ok v := by
  intro text j
  let status := EnumType.ofNames 0 "Status" ["Open", "Closed", "CLOSED"]
  let order := Class.declared 0 "Order"
  have hrun : (parse text).toOption.any fun s =>
      (typeNamed s.types "List<Order>".toList).toOption = some (.list (.cls order)) ∧
      s.catalog.fields order = [("Id", .int32), ("Status", .nullable (.enum status)), ("Prices", .list .decimal),
        ("Placed", .dateTime)] ∧
      (j.toValue s.catalog (.list (.cls order)) "$").toOption.any fun v => ∀ w ∈ v.parts, w.Legible := by
    decide +kernel
  obtain ⟨s, hs, hcheck⟩ := toOption_any.mp hrun
  obtain ⟨hty, hfields, hvalue⟩ := of_decide_eq_true hcheck
  obtain ⟨v, hv, hlegible⟩ := toOption_any.mp hvalue
  have hinside : ∀ t, s.catalog.Contains (.list (.cls order)) t → t ∈ [Ty.list (.cls order), .cls order, .int32,
      .nullable (.enum status), .enum status, .list .decimal, .decimal, .dateTime] := by
    intro t h
    cases h with
    | self => simp
    | list h =>
        cases h with
        | self => simp
        | field hfield h =>
            rw [hfields] at hfield
            simp only [List.mem_cons, Prod.mk.injEq, List.not_mem_nil, or_false] at hfield
            rcases hfield with ⟨-, rfl⟩ | ⟨-, rfl⟩ | ⟨-, rfl⟩ | ⟨-, rfl⟩
            · cases h
              simp
            · cases h with
              | self => simp
              | nullable h => cases h; simp
            · cases h with
              | self => simp
              | list h => cases h; simp
            · cases h
              simp
  refine ⟨s, _, v, hs, toOption_eq_some.mp hty, hv, toValue_written hs (toOption_eq_some.mp hty) ?_ ?_ ?_ hv
    (of_decide_eq_true hlegible)⟩
  · have hother : ∀ t ∈ [Ty.single, .double, .timeSpan, .object], t ∉ [Ty.list (.cls order), .cls order, .int32,
        .nullable (.enum status), .enum status, .list .decimal, .decimal, .dateTime] := by
      decide +kernel
    exact fun t ht h => hother t ht (hinside t h)
  · intro e h
    have heq : e = status := by simpa using hinside _ h
    rw [heq]
    decide +kernel
  · intro c h
    have heq : c = order := by simpa using hinside _ h
    rw [heq, hfields]
    decide +kernel

/-- A number that no member of the enumeration has is read, but what is written for it is refused. -/
theorem Schema.toValue_written_unnamed :
    let text := "element = \"Status\"\n[[enums]]\nname = \"Status\"\nmembers = [\"Open\"]\n"
    ∃ s v e, parse text = .ok s ∧
      (∀ t ∈ [Ty.single, .double, .timeSpan, .object], ¬ s.catalog.Contains s.element t) ∧
      (Json.int 5).toValue s.catalog s.element "$" = .ok v ∧ (v.toJson s.catalog).text = "\"5\"" ∧
      (v.toJson s.catalog).toValue s.catalog s.element "$" = .error e ∧
      e.message = "$: expected Status, found \"5\"" := by
  intro text
  have hrun : (parse text).toOption.any fun s => s.element = .enum (.ofNames 0 "Status" ["Open"]) ∧
      ((Json.int 5).toValue s.catalog s.element "$").toOption.any fun v => (v.toJson s.catalog).text = "\"5\"" ∧
        (failure? ((v.toJson s.catalog).toValue s.catalog s.element "$")).any fun e =>
          e.message = "$: expected Status, found \"5\"" := by
    decide +kernel
  obtain ⟨s, hs, hcheck⟩ := toOption_any.mp hrun
  obtain ⟨helement, hvalue⟩ := of_decide_eq_true hcheck
  obtain ⟨v, hv, hwritten⟩ := toOption_any.mp hvalue
  obtain ⟨htext, hfails⟩ := of_decide_eq_true hwritten
  obtain ⟨e, he, hmessage⟩ := failure?_any.mp hfails
  refine ⟨s, v, e, hs, fun t ht h => ?_, hv, htext, he, of_decide_eq_true hmessage⟩
  rw [helement] at h
  cases h
  exact absurd ht (by decide)

end RowQuery
