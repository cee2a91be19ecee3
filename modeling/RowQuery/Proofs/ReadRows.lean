import RowQuery.Proofs.Members
import RowQuery.Proofs.WrittenRows

/-!
Rows that are read are values of their type. Data is read by the type that is asked for: a simple value by its kind,
a list by the type of its items and an object by the fields of its class, where a field that is left out is absent.
Whatever is accepted conforms to the type, at every depth. A schema declares classes that have fields and nothing
else, so the promises that the evaluation of expressions relies on hold of its rows and of its classes.
-/

namespace RowQuery

namespace Json

variable {cat : Catalog} {types : List Ty} {ty t : Ty} {path : String} {j : Json} {v : Value}

/-! ### Simple values -/

theorem core_nullable (h : t.isNullable = false) : core (.nullable t) = t := by
  cases t <;> first | rfl | cases h

theorem regular_core (h : Schema.Regular ty) : Schema.Regular (core ty) := by
  cases ty with
  | nullable t =>
      rw [core_nullable h.1]
      exact h.2
  | _ => exact h

theorem conforms_of_core (hty : Schema.Regular ty) (h : cat.conforms v (core ty)) : cat.conforms v ty := by
  cases ty with
  | nullable t =>
      rw [core_nullable hty.1] at h
      exact Catalog.conforms_toNullable h hty.1
  | _ => exact h

theorem conforms_absent (h : absent ty path = .ok v) : cat.conforms v ty := by
  rw [absent] at h
  split at h <;> cases h
  rwa [Catalog.conforms_null]

mutual

/-- Data without a type is read as values of the general one. -/
theorem conforms_infer : ∀ j : Json, cat.conforms j.infer .object
  | .array items => by
      rw [infer, Catalog.conforms]
      exact conformEach_inferAll items
  | .int n => by
      rw [infer]
      split <;> rfl
  | .null | .bool _ | .float _ | .string _ | .object _ => rfl

theorem conformEach_inferAll : ∀ items : List Json, cat.conformEach (inferAll items) .object
  | [] => rfl
  | j :: items => by
      rw [inferAll, Catalog.conformEach, conforms_infer j, conformEach_inferAll items]
      rfl

end

theorem conforms_scalar? (h : j.scalar? t = some v) : cat.conforms v t := by
  cases t with
  | object =>
      cases h
      exact conforms_infer j
  | boolean | string =>
      cases j <;> cases h
      rfl
  | char =>
      cases j with
      | string s =>
          simp only [scalar?] at h
          split at h <;> cases h
          rfl
      | _ => cases h
  | int k =>
      cases j with
      | int n =>
          obtain ⟨w, -, rfl⟩ := Option.map_eq_some_iff.mp h
          exact Catalog.conforms_int.mpr ⟨w, rfl⟩
      | _ => cases h
  | single | double | decimal | timeSpan =>
      obtain ⟨x, -, rfl⟩ := Option.map_eq_some_iff.mp h
      rfl
  | dateTime =>
      cases j with
      | string s =>
          obtain ⟨m, -, rfl⟩ := Option.map_eq_some_iff.mp h
          rfl
      | _ => cases h
  | enum e =>
      cases j with
      | string s =>
          obtain ⟨n, -, rfl⟩ := Option.map_eq_some_iff.mp h
          simp [Catalog.conforms, Ty.underlying]
      | int m =>
          obtain ⟨n, -, rfl⟩ := Option.map_eq_some_iff.mp h
          simp [Catalog.conforms, Ty.underlying]
      | _ => cases h
  | nullable | list | grouping | cls => cases h

theorem conforms_ofScalar (hty : Schema.Regular ty) (h : ofScalar (core ty) path j = .ok v) : cat.conforms v ty :=
  conforms_of_core hty (conforms_scalar? (ofScalar_eq_ok.mp h))

theorem conforms_of_simple (hty : Schema.Regular ty) (h : j.toValue cat ty path = .ok v) (hj : j.IsSimple) :
    cat.conforms v ty := by
  rw [toValue_of_simple hj] at h
  exact conforms_ofScalar hty h

/-! ### Lists and objects -/

theorem regular_field (hcat : Schema.RegularTypes types cat) {c : Class}
    (hc : Schema.Regular (.cls c)) {f : String × Ty} (hf : f ∈ cat.fields c) : Schema.Regular f.2 :=
  have hcontains : cat.Contains (.cls c) f.2 := .field hf (.self f.2)
  hcontains.regular hcat hc

/-- An object with a value for each field of its class conforms to the class. -/
theorem conforms_instance {c : Class} {vs : List Value}
    (h : List.Forall₂ (fun f v => cat.conforms v f.2) (cat.fields c) vs) :
    cat.conforms (.object c vs []) (.cls c) := by
  have hfields : cat.conformAll vs ((cat.fields c).map (·.2)) := by
    rw [Catalog.conformAll_iff, List.forall₂_map_right_iff]
    exact h.flip
  simp only [Catalog.conforms, Ty.underlying, Catalog.isSubclass_refl, hfields, Bool.true_and]
  split <;> rfl

mutual

/-- What is read as a value of a type conforms to it. -/
theorem conforms_toValue (hcat : Schema.RegularTypes types cat) : ∀ (j : Json) {ty : Ty} {path : String} {v : Value},
    Schema.Regular ty → j.toValue cat ty path = .ok v → cat.conforms v ty
  | .null, ty, path, v, _, h => by
      rw [toValue] at h
      exact conforms_absent h
  | .array items, ty, path, v, hty, h => by
      rw [toValue] at h
      split at h
      · rename_i element hcore
        obtain ⟨vs, hvs, heq⟩ := Typing.bind_eq_ok.mp h
        cases heq
        have hlist : Schema.Regular (.list element) := hcore ▸ regular_core hty
        have hitems := conformEach_itemValues hcat items (show Schema.Regular element from hlist) hvs
        exact conforms_of_core hty (by rwa [hcore, Catalog.conforms])
      · exact conforms_ofScalar hty h
  | .object fields, ty, path, v, hty, h => by
      rw [toValue] at h
      split at h
      · rename_i c hcore
        obtain ⟨vs, hvs, heq⟩ := Typing.bind_eq_ok.mp h
        cases heq
        have hc : Schema.Regular (.cls c) := hcore ▸ regular_core hty
        have hread := mapM_eq_ok.mp hvs
        have hfields : List.Forall₂ (fun f v => cat.conforms v f.2) (cat.fields c) vs :=
          List.forall₂_iff_zip.mpr ⟨hread.length_eq, fun hfv => conforms_fieldValue hcat fields
            (regular_field hcat hc (List.of_mem_zip hfv).1) (List.forall₂_zip hread hfv)⟩
        exact conforms_of_core hty (by rw [hcore]; exact conforms_instance hfields)
      · exact conforms_ofScalar hty h
  | .bool _, _, _, _, hty, h | .int _, _, _, _, hty, h | .float _, _, _, _, hty, h
  | .string _, _, _, _, hty, h => conforms_of_simple hty h trivial

theorem conformEach_itemValues (hcat : Schema.RegularTypes types cat) : ∀ (items : List Json) {ty : Ty} {path : String}
    {i : Nat} {vs : List Value}, Schema.Regular ty → itemValues cat ty path i items = .ok vs → cat.conformEach vs ty
  | [], ty, path, i, vs, _, h => by
      cases h
      rfl
  | j :: items, ty, path, i, vs, hty, h => by
      rw [itemValues] at h
      obtain ⟨v, hv, h⟩ := Typing.bind_eq_ok.mp h
      obtain ⟨vs, hvs, heq⟩ := Typing.bind_eq_ok.mp h
      cases heq
      rw [Catalog.conformEach, conforms_toValue hcat j hty hv, conformEach_itemValues hcat items hty hvs]
      rfl

theorem conforms_fieldValue (hcat : Schema.RegularTypes types cat) : ∀ (fields : List (String × Json)) {name : String}
    {ty : Ty} {path : String} {v : Value}, Schema.Regular ty → fieldValue cat name ty path fields = .ok v →
      cat.conforms v ty
  | [], name, ty, path, v, _, h => by
      rw [fieldValue] at h
      exact conforms_absent h
  | (n, j) :: fields, name, ty, path, v, hty, h => by
      rw [fieldValue] at h
      split at h
      · exact conforms_toValue hcat j hty h
      · exact conforms_fieldValue hcat fields hty h

end

theorem conforms_rows (hcat : Schema.RegularTypes types cat) {rows : List Value} (hty : Schema.Regular ty)
    (h : j.rows cat ty = .ok rows) : ∀ row ∈ rows, cat.conforms row ty := by
  cases j with
  | array items => exact Catalog.conformEach_iff.mp (conformEach_itemValues hcat items hty h)
  | _ => cases h

theorem fieldValue_of_missing {name : String} {fields : List (String × Json)} (h : fields.lookup name = none) :
    fieldValue cat name ty path fields = absent ty path := by
  induction fields with
  | nil => rw [fieldValue]
  | cons entry fields ih =>
      obtain ⟨n, k⟩ := entry
      rw [Named.lookup_entry] at h
      rw [fieldValue]
      by_cases hname : name = n
      · rw [if_pos hname] at h
        cases h
      · rw [if_neg hname] at h
        rw [if_neg (Ne.symm hname), ih h]

/-- A field that is left out may as well be given as absent. -/
theorem toValue_missing {c : Class} {name : String} {fields : List (String × Json)} (h : fields.lookup name = none) :
    (Json.object fields).toValue cat (.cls c) path =
      (Json.object ((name, .null) :: fields)).toValue cat (.cls c) path := by
  have hadded : ∀ n t p, fieldValue cat n t p ((name, .null) :: fields) = fieldValue cat n t p fields := by
    intro n t p
    rw [fieldValue]
    split
    · rename_i hname
      rw [toValue, fieldValue_of_missing (hname ▸ h)]
    · rfl
  simp only [toValue, core, hadded]

end Json

/-! ### Schemas -/

theorem Catalog.decl?_mem {cat : Catalog} {c : Class} {d : ClassDecl} (h : cat.decl? c = some d) : d ∈ cat.decls := by
  cases c with
  | declared id name => exact declIn_mem h
  | _ => cases h

namespace Schema

variable {cat : Catalog} {types : List Ty}

theorem layered_of_base {decls : List ClassDecl} (h : ∀ d ∈ decls, d.base = none) : Catalog.Layered decls := by
  induction decls with
  | nil => trivial
  | cons d decls ih =>
      obtain ⟨hd, hdecls⟩ := List.forall_mem_cons.mp h
      refine ⟨fun id name hbase => ?_, ih hdecls⟩
      rw [hd] at hbase
      cases hbase

/-- The classes of a schema have no members but their fields and the constructor for them, so there is nothing to
promise of others. -/
theorem RegularTypes.wellBehaved (h : RegularTypes types cat) : cat.WellBehaved where
  layered := layered_of_base h.base
  element := by
    intro c d e _ helement
    obtain ⟨level, -, hlevel⟩ := List.exists_of_findSome?_eq_some helement
    obtain ⟨decl, hdecl, hitem⟩ := Option.bind_eq_some_iff.mp hlevel
    rw [h.plain decl (Catalog.decl?_mem hdecl)] at hitem
    cases hitem
  members := by
    intro c d hd
    have hfields : cat.fields c = d.fields := by
      rw [Catalog.fields_of_base h.base]
      cases c with
      | declared => simp only [Catalog.ownFields, hd, Option.map_some, Option.getD_some]
      | _ => cases hd
    rw [h.plain d (Catalog.decl?_mem hd), ClassDecl.ofFields]
    refine ⟨by simp, by simp, List.forall_mem_singleton.mpr (Or.inr ⟨rfl, ?_⟩), by simp⟩
    rw [hfields]
    rfl

/-- The objects of a class of a schema have that class itself, and a value for each of its fields. -/
theorem RegularTypes.exists_fields (h : RegularTypes types cat) {c : Class} {v : Value}
    (hv : cat.conforms v (.cls c)) : v = .null ∨ ∃ fields items, v = .object c fields items ∧
      List.Forall₂ (fun u f => cat.conforms u f.2) fields (cat.fields c) := by
  cases v with
  | null => exact Or.inl rfl
  | object d fields items =>
      simp only [Catalog.conforms, Ty.underlying, Bool.and_eq_true] at hv
      have hsubclass := Catalog.isSubclass_iff.mp hv.1.1
      rw [Catalog.lineage, Catalog.lineageIn_of_base h.base, List.mem_singleton] at hsubclass
      subst hsubclass
      have hfields := Catalog.conformAll_iff.mp hv.1.2
      rw [List.forall₂_map_right_iff] at hfields
      exact Or.inr ⟨fields, items, rfl, hfields⟩
  | _ => simp [Catalog.conforms, Ty.underlying] at hv

theorem regular_element {text : String} {s : Schema} (h : parse text = .ok s) : Regular s.element := by
  have hregular := regular_parse h
  unfold parse at h
  split at h
  · obtain ⟨types, -, h⟩ := Typing.bind_eq_ok.mp h
    obtain ⟨⟨types', cat⟩, -, h⟩ := Typing.bind_eq_ok.mp h
    obtain ⟨element, helement, h⟩ := Typing.bind_eq_ok.mp h
    cases h
    exact regular_typeNamed hregular.types helement
  · cases h

/-- Data that a schema's type accepts is read as a value that conforms to the type. For the classes of the schema
this means that a value is absent or an object of the class itself, with a conforming value for each field in its
place; a field that the data leaves out is read as if it were given as absent. The rows are values of the element
type, and with the classes of the schema all promises are kept that evaluation relies on. -/
theorem toValue_conforms {text : String} {s : Schema} (hs : parse text = .ok s) :
    (∀ (name path : String) (ty : Ty) (j : Json) (v : Value), typeNamed s.types name.toList = .ok ty →
      j.toValue s.catalog ty path = .ok v → s.catalog.conforms v ty) ∧
    (∀ (c : Class) (v : Value), s.catalog.conforms v (.cls c) → v = .null ∨ ∃ fields items,
      v = .object c fields items ∧ List.Forall₂ (fun u f => s.catalog.conforms u f.2) fields (s.catalog.fields c)) ∧
    (∀ (c : Class) (name path : String) (fields : List (String × Json)), fields.lookup name = none →
      (Json.object fields).toValue s.catalog (.cls c) path =
        (Json.object ((name, .null) :: fields)).toValue s.catalog (.cls c) path) ∧
    s.catalog.WellBehaved ∧
    ∀ (j : Json) (rows : List Value), j.rows s.catalog s.element = .ok rows →
      ∀ row ∈ rows, s.catalog.conformAll [row] (([⟨none, s.element⟩] : List ParamDecl).map (·.ty)) := by
  have hcat := regular_parse hs
  refine ⟨fun name path ty j v hname hread => ?_, fun c v hv => hcat.exists_fields hv,
    fun c name path fields hmissing => Json.toValue_missing hmissing, hcat.wellBehaved,
    fun j rows hrows row hrow => ?_⟩
  · exact Json.conforms_toValue hcat j (regular_typeNamed hcat.types hname) hread
  · have hconforms := Json.conforms_rows hcat (regular_element hs) hrows row hrow
    simpa [Catalog.conformAll] using hconforms

/-- Orders of which one has no note and the other no tags, which are characters or absent. -/
theorem toValue_conforms_orders :
    let text := "element = \"Order\"\n[[classes]]\nname = \"Order\"\n" ++
      "fields = [\x7b name = \"Id\", type = \"Byte\" \x7d, " ++
      "\x7b name = \"Note\", type = \"String\" \x7d, \x7b name = \"Tags\", type = \"List<Char?>\" \x7d]\n"
    let j : Json := .array [.object [("Tags", .array [.string "a", .null]), ("Id", .int 255)],
      .object [("Id", .int 0), ("Note", .string "n")]]
    ∃ s ty v rows, parse text = .ok s ∧ typeNamed s.types "List<Order>".toList = .ok ty ∧
      j.toValue s.catalog ty "$" = .ok v ∧ j.rows s.catalog s.element = .ok rows ∧ rows.length = 2 ∧
      s.catalog.conforms v ty ∧ ∀ row ∈ rows, s.catalog.conformAll [row] [s.element] := by
  intro text j
  have hrun : (parse text).toOption.any fun s => (typeNamed s.types "List<Order>".toList).toOption.any fun ty =>
      (j.toValue s.catalog ty "$").toOption.any fun _ => (j.rows s.catalog s.element).toOption.any (·.length = 2) := by
    decide +kernel
  obtain ⟨s, hs, hrun⟩ := toOption_any.mp hrun
  obtain ⟨ty, hty, hrun⟩ := toOption_any.mp hrun
  obtain ⟨v, hv, hrun⟩ := toOption_any.mp hrun
  obtain ⟨rows, hrows, hlength⟩ := toOption_any.mp hrun
  obtain ⟨hconforms, -, -, -, hrow⟩ := toValue_conforms hs
  exact ⟨s, ty, v, rows, hs, hty, hv, hrows, of_decide_eq_true hlength, hconforms _ _ ty j v hty hv, hrow j rows hrows⟩

end Schema

end RowQuery
