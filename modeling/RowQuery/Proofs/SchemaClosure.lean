import Mathlib.Data.List.Induction
import Mathlib.Data.List.Nodup
import Mathlib.Logic.Relation
import RowQuery.Proofs.TypeNames
import RowQuery.Proofs.WrittenRows

/-!
Schemas are closed. The types of a schema are those that its document declares, in order; each declaration adds one
type whose name is new, so that the list of types, the search for declared names and the context of expressions agree
on what a name stands for. A class is declared after everything that occurs in the types of its fields.
-/

namespace RowQuery

/-! ### Contexts -/

namespace Context

/-- The entries of a list of types. -/
def entries (types : List Ty) : List (String × Ty) :=
  types.filterMap fun t => (nameOf? t).map fun name => (Text.fold name, t)

theorem entries_concat (types : List Ty) {t : Ty} {name : String} (h : nameOf? t = some name) :
    entries (types ++ [t]) = entries types ++ [(Text.fold name, t)] := by
  rw [entries, List.filterMap_append, entries]
  simp [h]

/-- A name is looked up among the entries of types as it is among the types. -/
theorem lookup_entries (types : List Ty) (name : String) :
    (entries types).lookup (Text.fold name) = Schema.declared? types name := by
  induction types with
  | nil => rfl
  | cons t types ih =>
      rw [Schema.declared?] at ih ⊢
      rw [List.find?_cons]
      cases ht : nameOf? t with
      | none => simpa [entries, ht] using ih
      | some other =>
          have hentries : entries (t :: types) = (Text.fold other, t) :: entries types := by simp [entries, ht]
          rw [hentries, List.lookup_cons]
          by_cases hsame : Text.sameName other name
          · simp [hsame, Text.sameName_iff.mp hsame]
          · have hkey : (Text.fold name == Text.fold other) = false :=
              beq_eq_false_iff_ne.mpr fun h => hsame (Text.sameName_iff.mpr h.symm)
            simpa [hsame, hkey] using ih

end Context

namespace Schema

/-! ### Declarations -/

variable {types : List Ty} {cat : Catalog} {t : Ty} {name : String}

theorem isFree_iff : isFree types name ↔
    Ty.predefined? name = none ∧ ∀ t ∈ types, ∀ other ∈ Context.nameOf? t, Text.sameName other name = false := by
  rw [isFree, Bool.and_eq_true, Option.isNone_iff_eq_none, Option.isNone_iff_eq_none, declared?, List.find?_eq_none]
  refine and_congr_right fun _ => forall₂_congr fun t _ => ?_
  cases Context.nameOf? t <;> simp

theorem Declared.nil : Declared [] := ⟨by simp, by simp, .nil⟩

/-- A type with a name that is free may be declared after others. -/
theorem Declared.concat (h : Declared types) (hkind : (∃ e, t = .enum e) ∨ ∃ id name, t = .cls (.declared id name))
    (hname : Context.nameOf? t = some name) (hfree : isFree types name) : Declared (types ++ [t]) := by
  obtain ⟨hpredefined, hother⟩ := isFree_iff.mp hfree
  refine ⟨List.forall_mem_append.mpr ⟨h.kind, List.forall_mem_singleton.mpr hkind⟩,
    List.forall_mem_append.mpr ⟨h.free, List.forall_mem_singleton.mpr ?_⟩,
    List.pairwise_append.mpr ⟨h.distinct, List.pairwise_singleton _ _, fun u hu => List.forall_mem_singleton.mpr ?_⟩⟩
  · rw [hname]
    simpa using hpredefined
  · intro a ha
    rw [hname]
    simpa using hother u hu a ha

theorem Declared.of_concat (h : Declared (types ++ [t])) : Declared types :=
  ⟨fun u hu => h.kind u (List.mem_append_left _ hu), fun u hu => h.free u (List.mem_append_left _ hu),
    (List.pairwise_append.mp h.distinct).1⟩

theorem Declared.exists_name (h : Declared types) (ht : t ∈ types) : ∃ name, Context.nameOf? t = some name := by
  rcases h.kind t ht with ⟨e, rfl⟩ | ⟨id, name, rfl⟩
  · exact ⟨e.name, rfl⟩
  · exact ⟨name, rfl⟩

/-- The context has one entry for each declared type. -/
theorem Declared.named_ofTypes (h : Declared types) : (Context.ofTypes types).named = Context.entries types := by
  induction types using List.reverseRecOn with
  | nil => rfl
  | append_singleton types t ih =>
      have hbefore := h.of_concat
      obtain ⟨name, hname⟩ := h.exists_name (List.mem_append_right types List.mem_cons_self)
      have hnone : (Context.ofTypes types).lookup? name = none := by
        rw [Context.lookup?, ih hbefore, Context.lookup_entries, declared?, List.find?_eq_none]
        intro u hu
        obtain ⟨other, hother⟩ := hbefore.exists_name hu
        have hdistinct := (List.pairwise_append.mp h.distinct).2.2 u hu t List.mem_cons_self
        simp [hother, hdistinct other hother name hname]
      have hinsert : Context.ofTypes (types ++ [t]) = (Context.ofTypes types).insert t := by
        rw [Context.ofTypes, List.foldl_append]
        rfl
      rw [hinsert, Context.insert, hname, Context.entries_concat types hname, ← ih hbefore]
      simp [hnone]

theorem Declared.lookup?_ofTypes (h : Declared types) (name : String) :
    (Context.ofTypes types).lookup? name = declared? types name := by
  rw [Context.lookup?, h.named_ofTypes, Context.lookup_entries]

theorem Declared.size_ofTypes (h : Declared types) : (Context.ofTypes types).size = types.length := by
  rw [Context.size, h.named_ofTypes, Context.entries, List.filterMap_length_eq_length]
  intro t ht
  obtain ⟨name, hname⟩ := h.exists_name ht
  simp [hname]

/-! ### Documents -/

/-- A field as it is written and as it is declared after some types. -/
def ReadsField (types : List Ty) (entry : String × String) (f : String × Ty) : Prop :=
  f.1 = entry.1 ∧ typeNamed types entry.2.toList = .ok f.2

/-- The types that enumerations and classes have declared so far, and the classes among them. -/
structure Holds (enums : List EnumEntry) (classes : List ClassEntry) (types : List Ty) (cat : Catalog) : Prop where
  /-- There is one type for each declaration, in order. -/
  names : types.map Context.nameOf? = (enums.map (·.name) ++ classes.map (·.name)).map some
  declared : Declared types
  enum : ∀ i < enums.length, ∃ e, types[i]? = some (.enum e)
  /-- The fields of a class are read in view of the types that are declared before it. -/
  cls : ∀ j c, classes[j]? = some c → ∃ id, types[enums.length + j]? = some (.cls (.declared id c.name)) ∧
    id < cat.decls.length ∧
    List.Forall₂ (ReadsField (types.take (enums.length + j))) c.fields (cat.fields (.declared id c.name))
  base : ∀ d ∈ cat.decls, d.base = none

variable {enums : List EnumEntry} {classes : List ClassEntry}

theorem Holds.length (h : Holds enums classes types cat) : types.length = enums.length + classes.length := by
  simpa using congrArg List.length h.names

theorem holds_nil : Holds [] [] [] .empty := ⟨rfl, .nil, by simp, by simp, by simp [Catalog.empty]⟩

theorem Holds.declareEnum {types' : List Ty} {e : EnumEntry} (h : Holds enums [] types .empty)
    (hstep : declareEnum types e = .ok types') : Holds (enums ++ [e]) [] types' .empty := by
  unfold Schema.declareEnum at hstep
  split at hstep <;> cases hstep
  rename_i hfree
  have hlength : types.length = enums.length := by simpa using h.length
  refine ⟨?_, h.declared.concat (Or.inl ⟨_, rfl⟩) rfl hfree, fun i hi => ?_, by simp, h.base⟩
  · have hnames := h.names
    simp only [List.map_nil, List.append_nil] at hnames ⊢
    simp only [List.map_append, hnames]
    rfl
  · rcases Nat.lt_or_ge i enums.length with hlt | hge
    · obtain ⟨e', he'⟩ := h.enum i hlt
      exact ⟨e', (List.getElem?_append_left (hlength ▸ hlt)).trans he'⟩
    · have hi : i = types.length := by
        rw [List.length_append, List.length_singleton] at hi
        omega
      subst hi
      exact ⟨_, List.getElem?_concat_length⟩

/-- A new class leaves the others as they are. -/
theorem fields_declare {d : ClassDecl} (h : ∀ d ∈ cat.decls, d.base = none) (hd : d.base = none) (id : Nat)
    (name : String) :
    (cat.declare d).1.fields (.declared id name) =
      if id = cat.decls.length then d.fields else cat.fields (.declared id name) := by
  have hall : ∀ e ∈ (cat.declare d).1.decls, e.base = none := List.forall_mem_cons.mpr ⟨hd, h⟩
  rw [Catalog.fields_of_base hall, Catalog.fields_of_base h]
  simp only [Catalog.ownFields, Catalog.decl?, Catalog.declare, Catalog.declIn]
  split <;> rfl

theorem declareClass_eq_ok {c : ClassEntry} {declared : List Ty × Catalog}
    (h : declareClass (types, cat) c = .ok declared) :
    ∃ fields, List.Forall₂ (ReadsField types) c.fields fields ∧ isFree types c.name ∧
      declared = (types ++ [.cls (.declared cat.decls.length c.name)],
        (cat.declare (.ofFields c.name fields)).1) := by
  obtain ⟨fields, hfields, h⟩ := Typing.bind_eq_ok.mp h
  simp only [Catalog.build, Catalog.declare, ClassDecl.ofCalls_ofFields] at h
  split at h <;> cases h
  rename_i hfree
  refine ⟨fields, (mapM_eq_ok.mp hfields).imp fun entry f hf => ?_, hfree, rfl⟩
  obtain ⟨ty, hty, heq⟩ := Typing.bind_eq_ok.mp hf
  cases heq
  exact ⟨rfl, hty⟩

theorem Holds.declareClass {c : ClassEntry} {declared : List Ty × Catalog} (h : Holds enums classes types cat)
    (hstep : declareClass (types, cat) c = .ok declared) : Holds enums (classes ++ [c]) declared.1 declared.2 := by
  obtain ⟨fields, hfields, hfree, rfl⟩ := declareClass_eq_ok hstep
  have hlength := h.length
  refine ⟨?_, h.declared.concat (Or.inr ⟨_, _, rfl⟩) rfl hfree, fun i hi => ?_, fun j c' hj => ?_,
    List.forall_mem_cons.mpr ⟨rfl, h.base⟩⟩
  · simp only [List.map_append, h.names, List.append_assoc]
    rfl
  · obtain ⟨e, he⟩ := h.enum i hi
    exact ⟨e, (List.getElem?_append_left (by omega)).trans he⟩
  · rcases Nat.lt_or_ge j classes.length with hlt | hge
    · obtain ⟨id, hid, hnumber, hread⟩ := h.cls j c' (List.getElem?_append_left hlt ▸ hj)
      refine ⟨id, (List.getElem?_append_left (by omega)).trans hid, Nat.lt_succ_of_lt hnumber, ?_⟩
      rw [List.take_append_of_le_length (by omega), fields_declare h.base rfl, if_neg (Nat.ne_of_lt hnumber)]
      exact hread
    · obtain ⟨hj', rfl⟩ : j = classes.length ∧ c' = c := by
        rw [List.getElem?_append_right hge] at hj
        have hzero : j - classes.length = 0 := by
          by_contra hpos
          rw [List.getElem?_eq_none (by simpa using Nat.one_le_iff_ne_zero.mpr hpos)] at hj
          cases hj
        rw [hzero] at hj
        exact ⟨by omega, by simpa using hj.symm⟩
      subst hj'
      refine ⟨cat.decls.length, ?_, Nat.lt_succ_self _, ?_⟩
      · rw [← hlength]
        exact List.getElem?_concat_length
      · rw [← hlength, List.take_left, fields_declare h.base rfl, if_pos rfl]
        exact hfields

/-- What holds of no declaration and is kept by each one holds of all of them. -/
theorem foldlM_run {ε α β : Type} {I : List α → β → Prop} {step : β → α → Except ε β} {as done : List α} {b b' : β}
    (hstep : ∀ {done before after} a, step before a = .ok after → I done before → I (done ++ [a]) after)
    (h : as.foldlM step b = .ok b') (hb : I done b) : I (done ++ as) b' := by
  induction as generalizing b done with
  | nil =>
      cases h
      rwa [List.append_nil]
  | cons a as ih =>
      rw [List.foldlM_cons] at h
      obtain ⟨between, ha, has⟩ := Typing.bind_eq_ok.mp h
      rw [List.append_cons]
      exact ih has (hstep a ha hb)

/-- What a document declares. -/
theorem holds_ofDocument {d : Document} {s : Schema} (h : ofDocument d = .ok s) :
    Holds d.enums d.classes s.types s.catalog ∧ typeNamed s.types d.element.toList = .ok s.element := by
  obtain ⟨types, henums, h⟩ := Typing.bind_eq_ok.mp h
  obtain ⟨⟨types', cat⟩, hclasses, h⟩ := Typing.bind_eq_ok.mp h
  obtain ⟨element, helement, h⟩ := Typing.bind_eq_ok.mp h
  cases h
  have hdeclared := foldlM_run (I := fun enums types => Holds enums [] types .empty)
    (fun _ hstep h => h.declareEnum hstep) henums holds_nil
  have hall := foldlM_run
    (I := fun classes (declared : List Ty × Catalog) => Holds d.enums classes declared.1 declared.2)
    (fun _ hstep h => h.declareClass hstep) hclasses hdeclared
  exact ⟨hall, helement⟩

/-! ### References -/

/-- A declared class has a field in whose type an enumeration or a class occurs. -/
def Refers (s : Schema) (t u : Ty) : Prop :=
  ∃ c, t = .cls c ∧ t ∈ s.types ∧ ∃ f ∈ s.catalog.fields c, u ∈ f.2.parts ∧ ((∃ e, u = .enum e) ∨ ∃ c, u = .cls c)

theorem Declared.take (h : Declared types) (i : Nat) : Declared (types.take i) :=
  ⟨fun t ht => h.kind t (List.mem_of_mem_take ht), fun t ht => h.free t (List.mem_of_mem_take ht),
    h.distinct.sublist (List.take_sublist i types)⟩

theorem forall_right {α β : Type} {R : α → β → Prop} {P : β → Prop} {as : List α} {bs : List β}
    (h : List.Forall₂ R as bs) (hP : ∀ a b, R a b → P b) : ∀ b ∈ bs, P b := by
  induction h with
  | nil => simp
  | cons hab _ ih => exact List.forall_mem_cons.mpr ⟨hP _ _ hab, ih⟩

/-- A class of the declared types is the one of its declaration. -/
theorem Holds.exists_entry (h : Holds enums classes types cat) {i : Nat} {c : Class} (hi : types[i]? = some (.cls c)) :
    ∃ j entry, i = enums.length + j ∧ classes[j]? = some entry ∧
      List.Forall₂ (ReadsField (types.take i)) entry.fields (cat.fields c) := by
  rcases Nat.lt_or_ge i enums.length with hlt | hge
  · obtain ⟨e, he⟩ := h.enum i hlt
    rw [hi] at he
    cases he
  · obtain ⟨j, rfl⟩ := Nat.exists_eq_add_of_le hge
    have hj : j < classes.length := by
      have hlt := (List.getElem?_eq_some_iff.mp hi).1
      rw [h.length] at hlt
      omega
    have hentry : classes[j]? = some classes[j] := List.getElem?_eq_getElem hj
    obtain ⟨id, hid, -, hread⟩ := h.cls j classes[j] hentry
    rw [hi] at hid
    cases hid
    exact ⟨j, classes[j], rfl, hentry, hread⟩

/-- The types of the fields of a class are built from types that are declared before it. -/
theorem Holds.expressible (h : Holds enums classes types cat) {i : Nat} {c : Class} (hi : types[i]? = some (.cls c)) :
    ∀ f ∈ cat.fields c, Expressible (types.take i) f.2 := by
  obtain ⟨-, entry, -, -, hread⟩ := h.exists_entry hi
  exact forall_right hread fun _ _ hf => expressible_typeNamed (h.declared.take i) hf.2

theorem Expressible.mem {t u : Ty} (h : Expressible types t) (hu : u ∈ t.parts)
    (hkind : (∃ e, u = .enum e) ∨ ∃ c, u = .cls c) : u ∈ types := by
  rcases hkind with ⟨e, rfl⟩ | ⟨c, rfl⟩
  · exact h _ hu
  · exact h _ hu

/-- References go to earlier declarations. -/
theorem Holds.idxOf_lt {s : Schema} (h : Holds enums classes s.types s.catalog) {t u : Ty} (href : s.Refers t u) :
    s.types.idxOf u < s.types.idxOf t := by
  obtain ⟨c, rfl, ht, f, hf, hu, hkind⟩ := href
  have hi : s.types[s.types.idxOf (.cls c)]? = some (.cls c) := List.getElem?_idxOf ht
  have hmem : u ∈ s.types.take (s.types.idxOf (.cls c)) := (h.expressible hi f hf).mem hu hkind
  exact (List.mem_take_iff_idxOf_lt (List.mem_of_mem_take hmem)).mp hmem

/-- A name by itself means the same in a field and in an expression. -/
theorem Declared.denotes (h : Declared types) {i : Nat} (hname : Lexeme.isName name.toList)
    (ht : typeNamed (types.take i) name.toList = .ok t) :
    (Ty.predefined? name).or ((Context.ofTypes types).lookup? name) = some t := by
  rw [typeNamed_plain hname, plainType, String.ofList_toList] at ht
  split at ht
  · cases ht
  · rename_i hpredefined
    cases ht
    rw [hpredefined, Option.some_or]
  · rename_i hpredefined
    split at ht <;> cases ht
    rename_i hdeclared
    rw [hpredefined, Option.none_or, h.lookup?_ofTypes]
    have hfind : (types.take i ++ types.drop i).find?
        (fun t => ((Context.nameOf? t).map (Text.sameName · name)).getD false) = _ := List.find?_append
    rw [List.take_append_drop] at hfind
    rw [declared?] at hdeclared ⊢
    rw [hfind, hdeclared, Option.some_or]

/-- Schemas are closed, and their types can be addressed. For what a document describes, and so for every text that is
decoded to it: the types are those of the declarations, in order, with names that are different in any case and not
predefined. The fields of a class are read in view of the types before it, so that every enumeration and class in
their types is declared before the class, and no chain of references comes back to where it started. The context has
one entry for each declared type and finds it under its name in any case; a name by itself means the same in a field,
wherever the declaration stands, and in an expression. -/
theorem ofDocument_closed {d : Document} {s : Schema} (h : ofDocument d = .ok s) :
    (∀ text, document? text = some d → parse text = .ok s) ∧
    (s.types.map Context.nameOf? = (d.enums.map (·.name) ++ d.classes.map (·.name)).map some ∧
      s.types.Pairwise (fun t u => ∀ a ∈ Context.nameOf? t, ∀ b ∈ Context.nameOf? u, Text.sameName a b = false) ∧
      ∀ t ∈ s.types, ∀ name ∈ Context.nameOf? t, Ty.predefined? name = none) ∧
    (∀ i c, s.types[i]? = some (.cls c) →
      (∃ j entry, i = d.enums.length + j ∧ d.classes[j]? = some entry ∧
        List.Forall₂ (ReadsField (s.types.take i)) entry.fields (s.catalog.fields c)) ∧
      ∀ f ∈ s.catalog.fields c, ∀ u ∈ f.2.parts, ((∃ e, u = .enum e) ∨ ∃ c, u = .cls c) → u ∈ s.types.take i) ∧
    (∀ t, ¬Relation.TransGen s.Refers t t) ∧
    (s.context.size = s.types.length ∧
      ∀ t ∈ s.types, ∀ name ∈ Context.nameOf? t, ∀ name', Text.sameName name name' →
        s.context.lookup? name' = some t) ∧
    ∀ i name t, Lexeme.isName name.toList → typeNamed (s.types.take i) name.toList = .ok t →
      (Ty.predefined? name).or (s.context.lookup? name) = some t := by
  obtain ⟨hall, -⟩ := holds_ofDocument h
  have hdeclared := hall.declared
  refine ⟨fun text htext => ?_, ⟨hall.names, hdeclared.distinct, hdeclared.free⟩,
    fun i c hi => ⟨hall.exists_entry hi, fun f hf u hu hkind => (hall.expressible hi f hf).mem hu hkind⟩,
    fun t hcycle => ?_, ⟨hdeclared.size_ofTypes, fun t ht name hname name' hsame => ?_⟩,
    fun i name t hname ht => hdeclared.denotes hname ht⟩
  · unfold parse
    rw [htext]
    exact h
  · -- along references, the place among the declarations gets smaller
    have hdescends : ∀ u, Relation.TransGen s.Refers t u → s.types.idxOf u < s.types.idxOf t := by
      intro u hu
      induction hu with
      | single href => exact hall.idxOf_lt href
      | tail _ href ih => exact Nat.lt_trans (hall.idxOf_lt href) ih
    exact Nat.lt_irrefl _ (hdescends t hcycle)
  · rw [context, hdeclared.lookup?_ofTypes]
    exact hdeclared.declared?_eq ht hname hsame

/-- Orders have items and a state, and expressions may spell these names in any case. -/
theorem ofDocument_closed_orders :
    let d : Document := ⟨"Order", [⟨"State", ["Open"]⟩],
      [⟨"Item", []⟩, ⟨"Order", [("Items", "List<item>"), ("State", "STATE?")]⟩]⟩
    ∃ s t, ofDocument d = .ok s ∧ s.context.size = 3 ∧ (∀ t, ¬Relation.TransGen s.Refers t t) ∧ t ∈ s.types ∧
      s.context.lookup? "ORDER" = some t := by
  intro d
  have hrun : (ofDocument d).toOption.any fun s => s.types.length == 3 := by decide +kernel
  obtain ⟨s, hs, hlength⟩ := toOption_any.mp hrun
  obtain ⟨-, ⟨hnames, -, -⟩, -, hacyclic, ⟨hsize, hlookup⟩, -⟩ := ofDocument_closed hs
  have hmem : some "Order" ∈ s.types.map Context.nameOf? := hnames ▸ (by decide)
  obtain ⟨t, ht, hname⟩ := List.mem_map.mp hmem
  exact ⟨s, t, hs, hsize.trans (beq_iff_eq.mp hlength), hacyclic, ht, hlookup t ht "Order" hname "ORDER" (by decide)⟩

end Schema

end RowQuery
