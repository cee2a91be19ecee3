import RowQuery.Proofs.Operations

/-!
The members of types respect types. What a property, method, indexer or constructor gives conforms to the
type it is declared with, for a receiver and arguments that conform to theirs. For the predefined members
this is proved operation by operation; for members of the host it is what `Catalog.WellBehaved` asks.
-/

namespace RowQuery

variable {cat : Catalog}

namespace Catalog

/-- What a member is called on: nothing, or a value of a type that is absent only if the type is a nullable
form. -/
def Accepts (cat : Catalog) : Option Ty → Option Value → Prop
  | none, this => this = none
  | some t, this => ∃ v, this = some v ∧ cat.conforms v t ∧ (v.isNull → t.isNullable)

end Catalog

namespace ClassDecl

/-- The declaration of a class that has only fields and the constructor for them. -/
def ofFields (name : String) (fields : List (String × Ty)) : ClassDecl :=
  ⟨name, none, fields, [], [], [.constructor (fields.map (·.2)) (.builtin .objectNew)], [], none⟩

theorem foldl_field (cat : Catalog) (fields : List (String × Ty)) (d : ClassDecl) :
    (fields.map fun (name, ty) => Call.field name ty).foldl (add cat) d = { d with fields := d.fields ++ fields } := by
  induction fields generalizing d with
  | nil => rw [List.append_nil]; rfl
  | cons f fields ih => rw [List.map_cons, List.foldl_cons, ih, add, List.append_assoc, List.singleton_append]

theorem ofCalls_ofFields (cat : Catalog) (name : String) (fields : List (String × Ty)) :
    ofCalls cat name (Call.ofFields fields) = ofFields name fields := by
  rw [ofCalls, Call.ofFields, List.foldl_append, foldl_field]
  rfl

end ClassDecl

/-- A member of the host that gives a value of the promised type whenever it succeeds. -/
def Method.Respects (cat : Catalog) (receiver : Option Ty) (result : Ty) (m : Method) : Prop :=
  ∃ run, m.body = .native run ∧
    ∀ this args v, cat.Accepts receiver this → cat.conformAll args m.params →
      run cat.layout this args = .ok v → cat.conforms v result

/-- A property of the host: a constant of its type, or a function of the objects of a class. -/
def Property.Respects (cat : Catalog) (c : Class) (p : Property) : Prop :=
  (∃ v, p.getter = .constant v ∧ cat.conforms v p.ty) ∨
  (p.isStatic = false ∧ ∃ run, p.getter = .native run ∧
    ∀ this v, cat.conforms this (.cls c) → this.isNull = false → run cat.layout this = .ok v →
      cat.conforms v p.ty)

/-- A constructor that takes a value for each field of the class. The one that a call adds does so if no base and no
field is named after it. -/
def Method.TakesFields (cat : Catalog) (c : Class) (m : Method) : Prop :=
  m.body = .builtin .objectNew ∧ m.params = (cat.fields c).map (·.2)

/-- The members that a declaration adds to its fields keep to their types, and constructors for the fields take all
of them. -/
structure ClassDecl.Respects (cat : Catalog) (c : Class) (d : ClassDecl) : Prop where
  properties : ∀ p ∈ d.properties, p.Respects cat c
  methods : ∀ m ∈ d.methods, m.Respects cat (if m.isStatic then none else some (.cls c)) m.result
  constructors : ∀ m ∈ d.constructors, m.Respects cat none (.cls c) ∨ m.TakesFields cat c
  indexers : ∀ m ∈ d.indexers, m.Respects cat (some (.cls c)) m.result

/-- What the host promises of the classes it declares. -/
structure Catalog.WellBehaved (cat : Catalog) : Prop where
  layered : Catalog.Layered cat.decls
  /-- A class keeps the element type that it inherits. -/
  element : ∀ c d e, cat.isSubclass c d → cat.element? d = some e → cat.element? c = some e
  members : ∀ c d, cat.decl? c = some d → d.Respects cat c

namespace Catalog

theorem conformAll_nil {args : List Value} (h : cat.conformAll args []) : args = [] := by
  cases args with
  | nil => rfl
  | cons a rest => simp [conformAll] at h

theorem conformAll_cons {args : List Value} {t : Ty} {ts : List Ty} (h : cat.conformAll args (t :: ts)) :
    ∃ a rest, args = a :: rest ∧ cat.conforms a t ∧ cat.conformAll rest ts := by
  cases args with
  | nil => simp [conformAll] at h
  | cons a rest =>
      simp only [conformAll, Bool.and_eq_true] at h
      exact ⟨a, rest, rfl, h.1, h.2⟩

theorem conformAll_one {args : List Value} {t : Ty} (h : cat.conformAll args [t]) :
    ∃ a, args = [a] ∧ cat.conforms a t := by
  obtain ⟨a, _, rfl, ha, hrest⟩ := conformAll_cons h
  exact ⟨a, by rw [conformAll_nil hrest], ha⟩

theorem conformAll_two {args : List Value} {s t : Ty} (h : cat.conformAll args [s, t]) :
    ∃ a b, args = [a, b] ∧ cat.conforms a s ∧ cat.conforms b t := by
  obtain ⟨a, _, rfl, ha, hrest⟩ := conformAll_cons h
  obtain ⟨b, rfl, hb⟩ := conformAll_one hrest
  exact ⟨a, b, rfl, ha, hb⟩

theorem forall₂_getElem? {vs : List Value} {ts : List Ty}
    (h : List.Forall₂ (fun v t => cat.conforms v t) vs ts) {i : Nat} {t : Ty} (hi : ts[i]? = some t) :
    ∃ v, vs[i]? = some v ∧ cat.conforms v t := by
  induction h generalizing i with
  | nil => simp at hi
  | cons hhead _ ih =>
      cases i with
      | zero =>
          obtain rfl : _ = t := by simpa using hi
          exact ⟨_, rfl, hhead⟩
      | succ i => exact ih (by simpa using hi)

/-- A receiver whose type is no nullable form is present. -/
theorem Accepts.present {t : Ty} {this : Option Value} (h : cat.Accepts (some t) this)
    (ht : t.isNullable = false) : ∃ v, this = some v ∧ cat.conforms v t ∧ v.isNull = false := by
  obtain ⟨v, rfl, hv, hnull⟩ := h
  refine ⟨v, rfl, hv, ?_⟩
  cases hn : v.isNull with
  | false => rfl
  | true => simp [hnull hn] at ht

/-- A value of a class is accepted where one of a class above it is. -/
theorem Accepts.up (hcat : cat.WellBehaved) {c d : Class} (hd : cat.isSubclass c d)
    {this : Option Value} (h : cat.Accepts (some (.cls c)) this) : cat.Accepts (some (.cls d)) this := by
  obtain ⟨v, rfl, hv, hnull⟩ := h
  have hassignable : cat.isAssignable (.cls d) (.cls c) := hd
  exact ⟨v, rfl, conforms_of_isAssignable hcat.layered hassignable hv, hnull⟩

theorem Accepts.string {this : Option Value} (h : cat.Accepts (some .string) this) :
    ∃ s, this = some (.string s) := by
  obtain ⟨v, rfl, hv, hnull⟩ := h.present rfl
  rcases conforms_string.mp hv with rfl | ⟨s, rfl⟩
  · simp [Value.isNull] at hnull
  · exact ⟨s, rfl⟩

end Catalog

namespace Operation

open Catalog

/-! ### Properties -/

/-- A constant of a type is a property of that type. -/
theorem yields_constant {name : String} {ty : Ty} {v : Value} (hv : cat.conforms v ty)
    (this : Option Value) :
    Yields (Eval.property cat (Predefined.constant name ty v) this) fun w => cat.conforms w ty := hv

theorem yields_bounds {ty : Ty} {least greatest : Value} (hleast : cat.conforms least ty)
    (hgreatest : cat.conforms greatest ty) {p : Property}
    (hp : p ∈ (Predefined.bounds ty least greatest).properties) (this : Option Value) :
    Yields (Eval.property cat p this) fun v => cat.conforms v p.ty := by
  simp only [Predefined.bounds, List.mem_cons, List.not_mem_nil, or_false] at hp
  rcases hp with rfl | rfl
  · exact yields_constant hleast this
  · exact yields_constant hgreatest this

theorem yields_dateTime_property {p : Property} (hp : p ∈ Predefined.dateTime.properties)
    (d : DateTime) : Yields (Eval.property cat p (some (.dateTime d))) fun v => cat.conforms v p.ty := by
  simp only [Predefined.dateTime, List.mem_cons, List.not_mem_nil, or_false] at hp
  rcases hp with rfl | rfl | rfl | rfl | rfl | rfl | rfl <;> exact rfl

theorem yields_timeSpan_property {p : Property} (hp : p ∈ Predefined.timeSpan.properties)
    (d : TimeSpan) : Yields (Eval.property cat p (some (.timeSpan d))) fun v => cat.conforms v p.ty := by
  simp only [Predefined.timeSpan, List.mem_cons, List.not_mem_nil, or_false] at hp
  rcases hp with rfl | rfl | rfl | rfl | rfl | rfl | rfl | rfl <;> exact rfl

theorem yields_itemCount (items : List Value) :
    Yields (property cat .listCount (.list items)) fun v => cat.conforms v .int32 := by
  have hcount : Yields (orElse (.overflow .itemCount) (Word.ofInt? .int32 items.length)) fun _ => True :=
    Yields.orElse rfl fun _ _ => trivial
  exact hcount.bind fun n _ => conforms_int.mpr ⟨n, rfl⟩

/-- The properties of predefined types give values of the declared types. -/
theorem yields_predefined_property {ty : Ty} {m : Members} {p : Property}
    (hm : Predefined.ofType? ty = some m) (hp : p ∈ m.properties) {this : Option Value}
    (hthis : p.isStatic = false → cat.Accepts (some ty) this) :
    Yields (Eval.property cat p this) fun v => cat.conforms v p.ty := by
  cases ty with
  | string =>
      cases hm
      obtain rfl := List.mem_singleton.mp hp
      obtain ⟨s, rfl⟩ := (hthis rfl).string
      exact conforms_int.mpr ⟨_, rfl⟩
  | dateTime =>
      cases hm
      have hstatic : ∀ p ∈ Predefined.dateTime.properties, p.isStatic = false := by
        simp [Predefined.dateTime, Predefined.readOnly]
      obtain ⟨v, rfl, hv, -⟩ := hthis (hstatic p hp)
      obtain ⟨d, rfl⟩ := conforms_dateTime.mp hv
      exact yields_dateTime_property hp d
  | timeSpan =>
      cases hm
      have hstatic : ∀ p ∈ Predefined.timeSpan.properties, p.isStatic = false := by
        simp [Predefined.timeSpan, Predefined.readOnly]
      obtain ⟨v, rfl, hv, -⟩ := hthis (hstatic p hp)
      obtain ⟨d, rfl⟩ := conforms_timeSpan.mp hv
      exact yields_timeSpan_property hp d
  | int k =>
      cases hm
      exact yields_bounds (conforms_int.mpr ⟨_, rfl⟩) (conforms_int.mpr ⟨_, rfl⟩) hp this
  | single =>
      cases hm
      exact yields_bounds (conforms_single.mpr ⟨_, rfl⟩) (conforms_single.mpr ⟨_, rfl⟩) hp this
  | double =>
      cases hm
      exact yields_bounds (conforms_double.mpr ⟨_, rfl⟩) (conforms_double.mpr ⟨_, rfl⟩) hp this
  | decimal =>
      cases hm
      exact yields_bounds (conforms_decimal.mpr ⟨_, rfl⟩) (conforms_decimal.mpr ⟨_, rfl⟩) hp this
  | nullable inner =>
      cases hm
      simp only [List.mem_cons, List.not_mem_nil, or_false] at hp
      rcases hp with rfl | rfl
      · obtain ⟨v, rfl, -, -⟩ := hthis rfl
        exact conforms_boolean.mpr ⟨_, rfl⟩
      · obtain ⟨v, rfl, hv, -⟩ := hthis rfl
        cases v with
        | null => rfl
        | _ => exact conforms_of_nullable rfl hv
  | list e =>
      cases hm
      obtain rfl := List.mem_singleton.mp hp
      obtain ⟨v, rfl, hv, hnull⟩ := (hthis rfl).present rfl
      rcases conforms_list hv with rfl | ⟨items, rfl, -⟩
      · simp [Value.isNull] at hnull
      · exact yields_itemCount items
  | grouping k e =>
      cases hm
      obtain rfl := List.mem_singleton.mp hp
      obtain ⟨v, rfl, hv, hnull⟩ := (hthis rfl).present rfl
      rcases conforms_grouping hv with rfl | ⟨key, items, rfl, hkey, -⟩
      · simp [Value.isNull] at hnull
      · exact hkey
  | enum e =>
      cases hm
      obtain ⟨⟨name, n⟩, -, rfl⟩ := List.mem_map.mp hp
      exact yields_constant (by simp [conforms, Ty.underlying]) this
  | object | boolean | char | cls _ => cases hm

/-- A field of an object is read at its position, whatever class of the hierarchy declared it. -/
theorem yields_field (hcat : cat.WellBehaved) {c d : Class} (hd : cat.isSubclass c d) {p : Property}
    (hp : p ∈ cat.fieldProperties d) {this : Option Value} (hthis : cat.Accepts (some (.cls c)) this) :
    Yields (Eval.property cat p this) fun v => cat.conforms v p.ty := by
  obtain ⟨-, i, hgetter, hi⟩ := mem_fieldProperties hp
  obtain ⟨v, rfl, hv, hnull⟩ := hthis.present rfl
  cases v with
  | object e fields items =>
      simp only [conforms, Ty.underlying, Bool.and_eq_true, conformAll_iff] at hv
      obtain ⟨⟨hsub, hfields⟩, -⟩ := hv
      obtain ⟨more, hmore⟩ := fields_prefix hcat.layered (isSubclass_trans hcat.layered hsub hd)
      have hlt : i < (cat.fields d).length := (List.getElem?_eq_some_iff.mp hi).1
      have htype : ((cat.fields e).map (·.2))[i]? = some p.ty := by
        rw [← hmore, List.map_append, List.getElem?_append_left (by simpa using hlt), List.getElem?_map, hi]
        rfl
      obtain ⟨w, hw, hconforms⟩ := forall₂_getElem? hfields htype
      simp only [Eval.property, hgetter, hw]
      exact hconforms
  | null => simp [Value.isNull] at hnull
  | _ => simp [conforms, Ty.underlying] at hv

theorem yields_native {r : Except String Value} {t : Ty} (h : ∀ v, r = .ok v → cat.conforms v t) :
    Yields (Eval.native r) fun v => cat.conforms v t := by
  cases r with
  | ok v => exact h v rfl
  | error message => rfl

/-- The properties of a class give values of their types for objects of every class below it. -/
theorem yields_class_property (hcat : cat.WellBehaved) {c d : Class} (hd : cat.isSubclass c d)
    {p : Property} (hp : p ∈ (cat.members d).properties) {this : Option Value}
    (hthis : p.isStatic = false → cat.Accepts (some (.cls c)) this) :
    Yields (Eval.property cat p this) fun v => cat.conforms v p.ty := by
  have hfield : p ∈ cat.fieldProperties d → Yields (Eval.property cat p this)
      fun v => cat.conforms v p.ty := fun hp =>
    yields_field hcat hd hp (hthis (mem_fieldProperties hp).1)
  cases d with
  | math =>
      simp only [members, Predefined.math, List.mem_cons, List.not_mem_nil, or_false] at hp
      rcases hp with rfl | rfl
      · exact yields_constant (conforms_double.mpr ⟨_, rfl⟩) this
      · exact yields_constant (conforms_double.mpr ⟨_, rfl⟩) this
  | convert => simp [members, Predefined.convert, Members.empty] at hp
  | shape fields => exact hfield hp
  | declared id name =>
      simp only [members] at hp
      split at hp
      · simp [Members.empty] at hp
      · rename_i decl hdecl
        rcases List.mem_append.mp hp with hp | hp
        · exact hfield hp
        · rcases (hcat.members _ _ hdecl).properties p hp with
            ⟨v, hgetter, hv⟩ | ⟨hstatic, run, hgetter, hrun⟩
          · simp only [Eval.property, hgetter]
            exact hv
          · obtain ⟨v, rfl, hv, hnull⟩ := ((hthis hstatic).up hcat hd).present rfl
            simp only [Eval.property, hgetter]
            exact yields_native fun w hw => hrun v w hv hnull hw

/-- The nearest property of a name gives a value of its type. -/
theorem yields_property (hcat : cat.WellBehaved) {ty : Ty} {name : String} {isStatic : Bool} {p : Property}
    (h : cat.property? ty name isStatic = some p) {this : Option Value}
    (hthis : cat.Accepts (if isStatic then none else some ty) this) :
    Yields (Eval.property cat p this) fun v => cat.conforms v p.ty := by
  obtain ⟨m, hm, hp⟩ := List.exists_of_findSome?_eq_some h
  have hstatic : p.isStatic = isStatic := by
    have := List.find?_some hp
    simp only [Bool.and_eq_true, beq_iff_eq] at this
    exact this.1
  replace hp : p ∈ m.properties := List.mem_of_find?_eq_some hp
  replace hthis : p.isStatic = false → cat.Accepts (some ty) this := by
    intro hp
    rw [← hstatic, hp] at hthis
    exact hthis
  rcases List.mem_append.mp hm with hm | hm
  · rcases mem_declaredMembers hm with ⟨c, d, rfl, hd, rfl⟩ | hm
    · exact yields_class_property hcat hd hp hthis
    · exact yields_predefined_property hm hp hthis
  · obtain rfl := List.mem_singleton.mp hm
    simp [Predefined.shared, Members.empty] at hp

/-! ### Methods -/

/-- A search in a text is decided unless what it looks for is absent. -/
theorem yields_search (test : List Char → List Char → Bool) (name s : String) {a : Value}
    (ha : cat.conforms a .string) :
    Yields (search test name (.string s) [a]) fun v => cat.conforms v .boolean := by
  rcases conforms_string.mp ha with rfl | ⟨p, rfl⟩
  · rfl
  · exact conforms_boolean.mpr ⟨_, rfl⟩

theorem yields_position (n : Int) (length : Nat) : Yields (position n length) fun _ => True := by
  unfold position
  split
  · exact trivial
  · rfl

theorem yields_substring (text : List Char) (n : Word .int32) {rest : List Value}
    (hrest : rest = [] ∨ ∃ k, rest = [.int .int32 k]) :
    Yields (substring text (.int .int32 n :: rest)) fun v => cat.conforms v .string := by
  refine Yields.ok_bind rfl (Yields.ok_bind rfl ?_)
  refine (yields_position n.val text.length).bind fun start _ => ?_
  rcases hrest with rfl | ⟨k, rfl⟩
  · rfl
  · refine Yields.ok_bind rfl ?_
    refine (yields_position k.val _).bind fun length _ => ?_
    rfl

/-- Texts are compared whether they are absent or not. -/
theorem yields_compareStrings (this : Option Value) (a b : Value) :
    Yields (Eval.call cat Predefined.compareStrings this [a, b]) fun v => cat.conforms v .int32 := by
  refine Yields.ok_bind rfl (Yields.ok_bind rfl ?_)
  refine (Value.yields_compare a b).bind fun order _ => ?_
  cases order <;> exact conforms_int.mpr ⟨_, rfl⟩

theorem yields_indexOf (s : String) {a : Value} (ha : cat.conforms a .string) (m : Method) :
    Yields (call cat .stringIndexOf m (some (.string s)) [a]) fun v => cat.conforms v .int32 := by
  refine Yields.ok_bind rfl (Yields.ok_bind rfl (Yields.ok_bind rfl ?_))
  rcases conforms_string.mp ha with rfl | ⟨p, rfl⟩
  · rfl
  · refine Yields.ok_bind rfl ?_
    split
    · exact conforms_int.mpr ⟨_, rfl⟩
    · exact conforms_int.mpr ⟨_, rfl⟩

theorem yields_replace (s : String) {a b : Value} (ha : cat.conforms a .string) (m : Method) :
    Yields (call cat .stringReplace m (some (.string s)) [a, b]) fun v => cat.conforms v .string := by
  refine Yields.ok_bind rfl (Yields.ok_bind rfl (Yields.ok_bind rfl ?_))
  rcases conforms_string.mp ha with rfl | ⟨p, rfl⟩
  · rfl
  · refine Yields.ok_bind rfl ?_
    split
    · rfl
    · rfl

theorem yields_string_method {m : Method} (hm : m ∈ Predefined.string.methods) {this : Option Value}
    (hthis : cat.Accepts (if m.isStatic then none else some .string) this) {args : List Value}
    (hargs : cat.conformAll args m.params) :
    Yields (Eval.call cat m this args) fun v => cat.conforms v m.result := by
  have hsearch : ∀ (name : String) (test : List Char → List Char → Bool) (this : Option Value),
      cat.Accepts (some .string) this → cat.conformAll args [.string] →
        Yields (do search test name (← orElse (.typeError (.needsInstance name)) this) args)
          fun v => cat.conforms v .boolean := by
    intro name test this hthis hargs
    obtain ⟨s, rfl⟩ := hthis.string
    obtain ⟨a, rfl, ha⟩ := conformAll_one hargs
    exact yields_search _ _ s ha
  simp only [Predefined.string, List.mem_cons, List.not_mem_nil, or_false] at hm
  rcases hm with rfl | rfl | rfl | rfl | rfl | rfl | rfl | rfl | rfl | rfl | rfl | rfl | rfl
  · exact hsearch _ _ _ hthis hargs
  · exact hsearch _ _ _ hthis hargs
  · exact hsearch _ _ _ hthis hargs
  · obtain ⟨s, rfl⟩ := hthis.string
    obtain ⟨a, rfl, ha⟩ := conformAll_one hargs
    exact yields_indexOf s ha _
  · obtain ⟨s, rfl⟩ := hthis.string
    rfl
  · obtain ⟨s, rfl⟩ := hthis.string
    rfl
  · obtain ⟨s, rfl⟩ := hthis.string
    rfl
  · obtain ⟨s, rfl⟩ := hthis.string
    obtain ⟨a, rfl, ha⟩ := conformAll_one hargs
    obtain ⟨n, rfl⟩ := conforms_int.mp ha
    exact yields_substring _ n (Or.inl rfl)
  · obtain ⟨s, rfl⟩ := hthis.string
    obtain ⟨a, b, rfl, ha, hb⟩ := conformAll_two hargs
    obtain ⟨n, rfl⟩ := conforms_int.mp ha
    obtain ⟨k, rfl⟩ := conforms_int.mp hb
    exact yields_substring _ n (Or.inr ⟨k, rfl⟩)
  · obtain ⟨s, rfl⟩ := hthis.string
    obtain ⟨a, b, rfl, ha, -⟩ := conformAll_two hargs
    exact yields_replace s ha _
  · rfl
  · obtain ⟨a, b, rfl, -, -⟩ := conformAll_two hargs
    exact yields_compareStrings this a b
  · obtain ⟨a, rfl, -⟩ := conformAll_one hargs
    exact conforms_boolean.mpr ⟨_, rfl⟩

theorem yields_absolute {ty : Ty}
    (hty : ty ∈ ([.int32, .int64, .single, .double, .decimal] : List Ty)) {a : Value}
    (ha : cat.conforms a ty) : Yields (absolute a) fun v => cat.conforms v ty := by
  simp only [List.mem_cons, List.not_mem_nil, or_false] at hty
  rcases hty with rfl | rfl | rfl | rfl | rfl
  · obtain ⟨n, rfl⟩ := conforms_int.mp ha
    exact (Yields.orElse rfl fun _ _ => trivial).map fun w _ => conforms_int.mpr ⟨w, rfl⟩
  · obtain ⟨n, rfl⟩ := conforms_int.mp ha
    exact (Yields.orElse rfl fun _ _ => trivial).map fun w _ => conforms_int.mpr ⟨w, rfl⟩
  · obtain ⟨x, rfl⟩ := conforms_single.mp ha
    exact conforms_single.mpr ⟨_, rfl⟩
  · obtain ⟨x, rfl⟩ := conforms_double.mp ha
    exact conforms_double.mpr ⟨_, rfl⟩
  · obtain ⟨d, rfl⟩ := conforms_decimal.mp ha
    exact conforms_decimal.mpr ⟨_, rfl⟩

/-- The lesser and the greater of two values are one of the two. -/
theorem yields_extreme {ty : Ty} {op : Builtin} (hop : op = .mathMin ∨ op = .mathMax) (m : Method)
    (this : Option Value) {a b : Value} (ha : cat.conforms a ty) (hb : cat.conforms b ty) :
    Yields (call cat op m this [a, b]) fun v => cat.conforms v ty := by
  rcases hop with rfl | rfl
  · refine Yields.ok_bind rfl (Yields.ok_bind rfl ?_)
    refine (Value.yields_compare a b).bind fun order _ => ?_
    cases order
    · exact ha
    · exact ha
    · exact hb
  · refine Yields.ok_bind rfl (Yields.ok_bind rfl ?_)
    refine (Value.yields_compare a b).bind fun order _ => ?_
    cases order
    · exact hb
    · exact ha
    · exact ha

theorem yields_round {ty : Ty} (hty : ty ∈ ([.double, .decimal] : List Ty)) {a : Value}
    (ha : cat.conforms a ty) (digits : Int) : Yields (round a digits) fun v => cat.conforms v ty := by
  simp only [List.mem_cons, List.not_mem_nil, or_false] at hty
  rcases hty with rfl | rfl
  · obtain ⟨x, rfl⟩ := conforms_double.mp ha
    simp only [round]
    split
    · exact conforms_double.mpr ⟨_, rfl⟩
    · rfl
  · obtain ⟨d, rfl⟩ := conforms_decimal.mp ha
    simp only [round]
    split
    · exact conforms_decimal.mpr ⟨_, rfl⟩
    · rfl

theorem yields_rounding {ty : Ty} (hty : ty ∈ ([.double, .decimal] : List Ty)) {m : Method}
    (hm : m ∈ [Predefined.staticMethod "Round" [ty] ty .mathRound,
      Predefined.staticMethod "Round" [ty, .int32] ty .mathRound,
      Predefined.staticMethod "Floor" [ty] ty .mathFloor,
      Predefined.staticMethod "Ceiling" [ty] ty .mathCeiling]) (this : Option Value)
    {args : List Value} (hargs : cat.conformAll args m.params) :
    Yields (Eval.call cat m this args) fun v => cat.conforms v m.result := by
  simp only [List.mem_cons, List.not_mem_nil, or_false] at hm
  rcases hm with rfl | rfl | rfl | rfl
  · obtain ⟨a, rfl, ha⟩ := conformAll_one hargs
    exact yields_round hty ha 0
  · obtain ⟨a, b, rfl, ha, hb⟩ := conformAll_two hargs
    obtain ⟨n, rfl⟩ := conforms_int.mp hb
    exact yields_round hty ha n.val
  all_goals
    obtain ⟨a, rfl, ha⟩ := conformAll_one hargs
    simp only [List.mem_cons, List.not_mem_nil, or_false] at hty
    rcases hty with rfl | rfl
    · obtain ⟨x, rfl⟩ := conforms_double.mp ha
      exact conforms_double.mpr ⟨_, rfl⟩
    · obtain ⟨d, rfl⟩ := conforms_decimal.mp ha
      exact conforms_decimal.mpr ⟨_, rfl⟩

theorem yields_math_method {m : Method} (hm : m ∈ Predefined.math.methods) (this : Option Value)
    {args : List Value} (hargs : cat.conformAll args m.params) :
    Yields (Eval.call cat m this args) fun v => cat.conforms v m.result := by
  simp only [Predefined.math, List.mem_append] at hm
  rcases hm with ((hm | hm) | hm) | hm
  · obtain ⟨ty, hty, rfl⟩ := List.mem_map.mp hm
    obtain ⟨a, rfl, ha⟩ := conformAll_one hargs
    exact yields_absolute hty ha
  · obtain ⟨ty, -, hm⟩ := List.mem_flatMap.mp hm
    simp only [List.mem_cons, List.not_mem_nil, or_false] at hm
    rcases hm with rfl | rfl
    · obtain ⟨a, b, rfl, ha, hb⟩ := conformAll_two hargs
      exact yields_extreme (Or.inl rfl) (Predefined.staticMethod "Min" [ty, ty] ty .mathMin) this ha hb
    · obtain ⟨a, b, rfl, ha, hb⟩ := conformAll_two hargs
      exact yields_extreme (Or.inr rfl) (Predefined.staticMethod "Max" [ty, ty] ty .mathMax) this ha hb
  · obtain ⟨ty, hty, hm⟩ := List.mem_flatMap.mp hm
    exact yields_rounding hty hm this hargs
  · simp only [List.mem_cons, List.not_mem_nil, or_false] at hm
    rcases hm with rfl | rfl
    · obtain ⟨a, b, rfl, ha, hb⟩ := conformAll_two hargs
      obtain ⟨x, rfl⟩ := conforms_double.mp ha
      obtain ⟨y, rfl⟩ := conforms_double.mp hb
      exact conforms_double.mpr ⟨_, rfl⟩
    · obtain ⟨a, rfl, ha⟩ := conformAll_one hargs
      obtain ⟨x, rfl⟩ := conforms_double.mp ha
      exact conforms_double.mpr ⟨_, rfl⟩

/-- The types that values can be converted to by name, the text aside. -/
def conversionTargets : List Ty := [.int32, .int64, .double, .decimal]

theorem conforms_zero {target : Ty} (h : target ∈ conversionTargets) :
    cat.conforms target.zero target := by
  simp only [conversionTargets, List.mem_cons, List.not_mem_nil, or_false] at h
  rcases h with rfl | rfl | rfl | rfl <;> rfl

theorem conforms_read {text : String} {target : Ty} {v : Value} (h : read? text target = some v) :
    cat.conforms v target := by
  unfold read? at h
  split at h
  · obtain ⟨n, -, rfl⟩ := Option.map_eq_some_iff.mp h
    exact conforms_int.mpr ⟨n, rfl⟩
  · obtain ⟨n, -, rfl⟩ := Option.map_eq_some_iff.mp h
    exact conforms_int.mpr ⟨n, rfl⟩
  · obtain ⟨x, -, rfl⟩ := Option.map_eq_some_iff.mp h
    exact conforms_double.mpr ⟨x, rfl⟩
  · obtain ⟨d, -, rfl⟩ := Option.map_eq_some_iff.mp h
    exact conforms_decimal.mpr ⟨d, rfl⟩
  · simp at h

/-- A value that is rounded is of the type it is rounded to, and else of the type it had. -/
theorem conforms_roundedFor {v : Value} {source target : Ty} (hv : cat.conforms v source) :
    cat.conforms (roundedFor target v).1 ((roundedFor target v).2.getD source) := by
  cases v with
  | single x =>
      simp only [roundedFor]
      split
      · exact conforms_double.mpr ⟨_, rfl⟩
      · exact hv
  | double x =>
      simp only [roundedFor]
      split
      · exact conforms_double.mpr ⟨_, rfl⟩
      · exact hv
  | decimal d =>
      simp only [roundedFor]
      split
      · exact conforms_decimal.mpr ⟨_, rfl⟩
      · exact hv
  | boolean b => exact conforms_int.mpr ⟨_, rfl⟩
  | _ => exact hv

theorem yields_convertTo {v : Value} {source target : Ty} (hv : cat.conforms v source)
    (htarget : target ∈ conversionTargets ∨ target = .string) :
    Yields (convertTo cat v source target) fun w => cat.conforms w target := by
  unfold convertTo
  split
  · rename_i hstring
    rw [hstring]
    rfl
  · rename_i hstring
    have hmem : target ∈ conversionTargets := htarget.resolve_right hstring
    have hcast : ∀ t ∈ conversionTargets, isCastTarget t := by decide
    split
    · exact conforms_zero hmem
    · exact Yields.orElse rfl fun w hw => conforms_read hw
    · exact yields_convert (conforms_roundedFor hv) (Or.inr (hcast target hmem)) true

theorem yields_convert_method {m : Method} (hm : m ∈ Predefined.convert.methods) (this : Option Value)
    {args : List Value} (hargs : cat.conformAll args m.params) :
    Yields (Eval.call cat m this args) fun v => cat.conforms v m.result := by
  rcases List.mem_append.mp hm with hm | hm
  · obtain ⟨⟨name, target⟩, htarget, hm⟩ := List.mem_flatMap.mp hm
    obtain ⟨source, -, rfl⟩ := List.mem_map.mp hm
    obtain ⟨a, rfl, ha⟩ := conformAll_one hargs
    have hmem : target ∈ conversionTargets := by
      simp only [List.mem_cons, Prod.mk.injEq, List.not_mem_nil, or_false] at htarget
      rcases htarget with ⟨-, rfl⟩ | ⟨-, rfl⟩ | ⟨-, rfl⟩ | ⟨-, rfl⟩ <;> decide
    exact yields_convertTo ha (Or.inl hmem)
  · obtain rfl := List.mem_singleton.mp hm
    obtain ⟨a, rfl, ha⟩ := conformAll_one hargs
    exact yields_convertTo ha (Or.inr rfl)

theorem yields_native_method {m : Method} {receiver : Option Ty} {result : Ty}
    (hm : m.Respects cat receiver result) {this : Option Value} (hthis : cat.Accepts receiver this)
    {args : List Value} (hargs : cat.conformAll args m.params) :
    Yields (Eval.call cat m this args) fun v => cat.conforms v result := by
  obtain ⟨run, hbody, hrun⟩ := hm
  simp only [Eval.call, hbody]
  exact yields_native fun v hv => hrun this args v hthis hargs hv

/-- The methods of a class give values of their types for objects of every class below it. -/
theorem yields_class_method (hcat : cat.WellBehaved) {c d : Class} (hd : cat.isSubclass c d) {m : Method}
    (hm : m ∈ (cat.members d).methods) {this : Option Value}
    (hthis : cat.Accepts (if m.isStatic then none else some (.cls c)) this) {args : List Value}
    (hargs : cat.conformAll args m.params) :
    Yields (Eval.call cat m this args) fun v => cat.conforms v m.result := by
  cases d with
  | math => exact yields_math_method hm this hargs
  | convert => exact yields_convert_method hm this hargs
  | shape fields => simp [members, Members.empty] at hm
  | declared id name =>
      simp only [members] at hm
      split at hm
      · simp [Members.empty] at hm
      · rename_i decl hdecl
        refine yields_native_method ((hcat.members _ _ hdecl).methods m hm) ?_ hargs
        cases hstatic : m.isStatic with
        | true =>
            rw [hstatic] at hthis
            exact hthis
        | false =>
            rw [hstatic] at hthis
            exact Accepts.up hcat hd hthis

/-- A method of a type, or of all types, gives a value of its type. -/
theorem yields_method (hcat : cat.WellBehaved) {ty : Ty} {level : Members}
    (hlevel : level ∈ cat.memberChain ty) {m : Method} (hm : m ∈ level.methods) {this : Option Value}
    (hthis : cat.Accepts (if m.isStatic then none else some ty) this) {args : List Value}
    (hargs : cat.conformAll args m.params) :
    Yields (Eval.call cat m this args) fun v => cat.conforms v m.result := by
  rcases List.mem_append.mp hlevel with hlevel | hlevel
  · rcases mem_declaredMembers hlevel with ⟨c, d, rfl, hd, rfl⟩ | hlevel
    · exact yields_class_method hcat hd hm hthis hargs
    · cases ty with
      | string =>
          cases hlevel
          exact yields_string_method hm hthis hargs
      | object | boolean | char | cls _ => cases hlevel
      | _ =>
          cases hlevel
          exact absurd hm List.not_mem_nil
  · obtain rfl := List.mem_singleton.mp hlevel
    obtain rfl := List.mem_singleton.mp hm
    obtain ⟨v, rfl, -⟩ := hthis
    rfl

/-! ### Indexers and constructors -/

theorem yields_stringChars (s : String) (n : Word .int32) (m : Method) :
    Yields (call cat .stringChars m (some (.string s)) [.int .int32 n]) fun v => cat.conforms v .char := by
  refine Yields.ok_bind rfl (Yields.ok_bind rfl (Yields.ok_bind rfl (Yields.ok_bind rfl ?_)))
  exact (Yields.orElse rfl fun _ _ => trivial).bind fun c _ => conforms_char.mpr ⟨c, rfl⟩

/-- An indexer of a type gives a value of its type. -/
theorem yields_indexer (hcat : cat.WellBehaved) {ty : Ty} {level : Members}
    (hlevel : level ∈ cat.memberChain ty) {m : Method} (hm : m ∈ level.indexers) {this : Option Value}
    (hthis : cat.Accepts (some ty) this) {args : List Value} (hargs : cat.conformAll args m.params) :
    Yields (Eval.call cat m this args) fun v => cat.conforms v m.result := by
  rcases List.mem_append.mp hlevel with hlevel | hlevel
  · rcases mem_declaredMembers hlevel with ⟨c, d, rfl, hd, rfl⟩ | hlevel
    · cases d with
      | declared id name =>
          simp only [members] at hm
          split at hm
          · simp [Members.empty] at hm
          · rename_i decl hdecl
            exact yields_native_method ((hcat.members _ _ hdecl).indexers m hm)
              (Accepts.up hcat hd hthis) hargs
      | _ => exact absurd hm List.not_mem_nil
    · cases ty with
      | string =>
          cases hlevel
          obtain rfl := List.mem_singleton.mp hm
          obtain ⟨s, rfl⟩ := hthis.string
          obtain ⟨a, rfl, ha⟩ := conformAll_one hargs
          obtain ⟨n, rfl⟩ := conforms_int.mp ha
          exact yields_stringChars s n _
      | object | boolean | char | cls _ => cases hlevel
      | _ =>
          cases hlevel
          exact absurd hm List.not_mem_nil
  · obtain rfl := List.mem_singleton.mp hlevel
    exact absurd hm List.not_mem_nil

theorem yields_dateTime_parts (year month day hour minute second : Int) :
    Yields (newDateTime.parts year month day hour minute second) fun v => cat.conforms v .dateTime := by
  unfold newDateTime.parts
  split
  · exact (Yields.orElse rfl fun _ _ => trivial).map fun d _ => conforms_dateTime.mpr ⟨d, rfl⟩
  · rfl

/-- Arguments that are all 32-bit integers are read as such. -/
theorem mapM_expectInt32 {n : Nat} {args : List Value} {what : String}
    (h : cat.conformAll args (List.replicate n .int32)) :
    ∃ ns : List Int, ns.length = n ∧ args.mapM (expectInt32 what) = .ok ns := by
  induction n generalizing args with
  | zero =>
      obtain rfl := conformAll_nil h
      exact ⟨[], rfl, rfl⟩
  | succ n ih =>
      obtain ⟨a, rest, rfl, ha, hrest⟩ := conformAll_cons h
      obtain ⟨k, rfl⟩ := conforms_int.mp ha
      obtain ⟨ns, hlength, hns⟩ := ih hrest
      refine ⟨k.val :: ns, by simp [hlength], ?_⟩
      rw [List.mapM_cons, hns]
      rfl

theorem yields_new_dateTime {n : Nat} (hn : n = 3 ∨ n = 6) {args : List Value}
    (hargs : cat.conformAll args (List.replicate n .int32)) (ty : Ty) :
    Yields (construct cat .dateTimeNew ty args) fun v => cat.conforms v .dateTime := by
  obtain ⟨ns, hlength, hns⟩ := mapM_expectInt32 hargs
  refine Yields.ok_bind hns ?_
  rcases hn with rfl | rfl
  · obtain ⟨a, b, c, rfl⟩ := List.length_eq_three.mp hlength
    exact yields_dateTime_parts ..
  · match ns, hlength with
    | [a, b, c, d, e, f], _ => exact yields_dateTime_parts ..

theorem yields_new_timeSpan {args : List Value} (hargs : cat.conformAll args (List.replicate 3 .int32))
    (ty : Ty) : Yields (construct cat .timeSpanNew ty args) fun v => cat.conforms v .timeSpan := by
  obtain ⟨ns, hlength, hns⟩ := mapM_expectInt32 hargs
  refine Yields.ok_bind hns ?_
  obtain ⟨a, b, c, rfl⟩ := List.length_eq_three.mp hlength
  exact Value.yields_ofTimeSpan? _

theorem yields_new_decimal {source : Ty}
    (hsource : source ∈ ([.int32, .uint32, .int64, .uint64, .single, .double] : List Ty)) {a : Value}
    (ha : cat.conforms a source) (ty : Ty) :
    Yields (construct cat .decimalNew ty [a]) fun v => cat.conforms v .decimal := by
  have hnatural : cat.conforms a a.naturalType := by
    simp only [List.mem_cons, List.not_mem_nil, or_false] at hsource
    cases a with
    | int k n => exact conforms_int.mpr ⟨n, rfl⟩
    | single x => exact conforms_single.mpr ⟨x, rfl⟩
    | double x => exact conforms_double.mpr ⟨x, rfl⟩
    | _ => rcases hsource with rfl | rfl | rfl | rfl | rfl | rfl <;> simp [conforms, Ty.underlying,
        Ty.admitsNull, Ty.isNullable, Ty.isValueType] at ha
  exact Yields.ok_bind rfl (yields_convert hnatural (Or.inr rfl) true)

/-- A constructor with a value for each field makes an object of its class. -/
theorem construct_takesFields {c : Class} {m : Method} (hm : m.TakesFields cat c) (args : List Value) :
    Eval.construct cat (.cls c) m args = .ok (.object c args []) := by
  rw [Eval.construct, hm.1]
  rfl

theorem yields_takesFields {c : Class} {m : Method} (hm : m.TakesFields cat c) {args : List Value}
    (hargs : cat.conformAll args m.params) :
    Yields (Eval.construct cat (.cls c) m args) fun v => cat.conforms v (.cls c) := by
  rw [hm.2] at hargs
  rw [construct_takesFields hm]
  show cat.conforms (.object c args []) (.cls c)
  simp only [conforms, Ty.underlying, conformEach, Bool.and_eq_true]
  refine ⟨⟨isSubclass_refl c, hargs⟩, ?_⟩
  split <;> rfl

theorem yields_native_constructor {m : Method} {ty : Ty} (hm : m.Respects cat none ty)
    {args : List Value} (hargs : cat.conformAll args m.params) :
    Yields (Eval.construct cat ty m args) fun v => cat.conforms v ty := by
  obtain ⟨run, hbody, hrun⟩ := hm
  simp only [Eval.construct, hbody]
  exact yields_native fun v hv => hrun none args v rfl hargs hv

theorem yields_class_construct (hcat : cat.WellBehaved) {c : Class} {m : Method}
    (hm : m ∈ (cat.members c).constructors) {args : List Value} (hargs : cat.conformAll args m.params) :
    Yields (Eval.construct cat (.cls c) m args) fun v => cat.conforms v (.cls c) := by
  cases c with
  | math | convert => exact absurd hm List.not_mem_nil
  | shape fields =>
      simp only [members, ClassDecl.ofCalls_ofFields] at hm
      obtain rfl := List.mem_singleton.mp hm
      exact yields_takesFields ⟨rfl, by rw [fields_shape]; rfl⟩ hargs
  | declared id name =>
      simp only [members] at hm
      split at hm
      · exact absurd hm List.not_mem_nil
      · rename_i decl hdecl
        rcases (hcat.members _ _ hdecl).constructors m hm with hm | hm
        · exact yields_native_constructor hm hargs
        · exact yields_takesFields hm hargs

theorem yields_predefined_construct {ty : Ty} {level : Members} (hlevel : Predefined.ofType? ty = some level)
    {m : Method} (hm : m ∈ level.constructors) {args : List Value}
    (hargs : cat.conformAll args m.params) :
    Yields (Eval.construct cat ty m args) fun v => cat.conforms v ty := by
  cases ty with
  | dateTime =>
      cases hlevel
      simp only [Predefined.dateTime, List.mem_cons, List.not_mem_nil, or_false] at hm
      rcases hm with rfl | rfl
      · exact yields_new_dateTime (Or.inl rfl) hargs .dateTime
      · exact yields_new_dateTime (Or.inr rfl) hargs .dateTime
  | timeSpan =>
      cases hlevel
      obtain rfl := List.mem_singleton.mp hm
      exact yields_new_timeSpan hargs .timeSpan
  | decimal =>
      cases hlevel
      obtain ⟨source, hsource, rfl⟩ := List.mem_map.mp hm
      obtain ⟨a, rfl, ha⟩ := conformAll_one hargs
      exact yields_new_decimal hsource ha .decimal
  | object | boolean | char | cls _ => cases hlevel
  | _ =>
      cases hlevel
      exact absurd hm List.not_mem_nil

/-- A constructor of a type makes a value of it. -/
theorem yields_construct (hcat : cat.WellBehaved) {ty : Ty} {m : Method} (hm : m ∈ cat.constructors ty)
    {args : List Value} (hargs : cat.conformAll args m.params) :
    Yields (Eval.construct cat ty m args) fun v => cat.conforms v ty := by
  unfold constructors memberChain at hm
  split at hm
  · rename_i level levels hchain
    by_cases hcls : ∃ c, ty = .cls c
    · obtain ⟨c, rfl⟩ := hcls
      obtain ⟨above, hlineage⟩ := lineageIn_head cat.decls c
      obtain rfl : cat.members c = level := by
        simp only [declaredMembers, lineage, hlineage] at hchain
        exact (List.cons.inj hchain).1
      exact yields_class_construct hcat hm hargs
    · have hlevel : level ∈ cat.declaredMembers ty ++ [Predefined.shared] := by
        rw [hchain]
        exact List.mem_cons_self
      rcases List.mem_append.mp hlevel with hlevel | hlevel
      · rcases mem_declaredMembers hlevel with ⟨c, _, rfl, _⟩ | hlevel
        · exact absurd ⟨c, rfl⟩ hcls
        · exact yields_predefined_construct hlevel hm hargs
      · obtain rfl := List.mem_singleton.mp hlevel
        exact absurd hm List.not_mem_nil
  · exact absurd hm List.not_mem_nil

end Operation

end RowQuery
