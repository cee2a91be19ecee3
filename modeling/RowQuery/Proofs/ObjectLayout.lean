import RowQuery.Proofs.Compatibility
import RowQuery.Proofs.Members

/-!
The layout of objects. Three things are worked out separately when a class is described: the fields of its objects, the
positions that the properties of its own fields read, and the parameters of the constructor that takes a value for each
field. The first two start from the fields of the base at the end, and the third one from what is known when its call
is made. Classes described later change none of them. So if neither a base nor a field is named after that call, the
three agree: in an object that the constructor makes, the property of a field finds the value that was given for it,
whichever class of the chain it belongs to.
-/

namespace RowQuery

/-! ### Calls -/

namespace ClassDecl

/-- The calls that say which fields there are. -/
def Call.laysOut : Call → Bool
  | .base _ | .field _ _ => true
  | _ => false

/-- The calls that add a constructor. -/
def Call.constructs : Call → Bool
  | .constructor _ _ | .fieldConstructor => true
  | _ => false

variable {cat : Catalog} {d : ClassDecl} {calls before after : List Call}

theorem allFields_add {call : Call} (h : call.laysOut = false) : (d.add cat call).allFields cat = d.allFields cat := by
  cases call with
  | base | field => cases h
  | _ => rfl

theorem allFields_foldl (h : ∀ call ∈ calls, call.laysOut = false) :
    (calls.foldl (add cat) d).allFields cat = d.allFields cat := by
  induction calls generalizing d with
  | nil => rfl
  | cons call calls ih =>
      obtain ⟨hcall, hcalls⟩ := List.forall_mem_cons.mp h
      rw [List.foldl_cons, ih hcalls, allFields_add hcall]

theorem base_add {call : Call} {c : Class} (h : (d.add cat call).base = some c) : d.base = some c ∨ call = .base c := by
  cases call with
  | base => exact Or.inr (congrArg Call.base (Option.some.inj h))
  | _ => exact Or.inl h

/-- A base is named in a call. -/
theorem mem_of_base {c : Class} (h : (calls.foldl (add cat) d).base = some c) : d.base = some c ∨ .base c ∈ calls := by
  induction calls generalizing d with
  | nil => exact Or.inl h
  | cons call calls ih =>
      rcases ih h with h | h
      · exact (base_add h).imp_right fun hcall => List.mem_cons.mpr (Or.inl hcall.symm)
      · exact Or.inr (List.mem_cons_of_mem _ h)

/-- A call leaves the constructors there are, and may add one after them. -/
theorem constructors_add (cat : Catalog) (d : ClassDecl) (call : Call) :
    ∃ added, (d.add cat call).constructors = d.constructors ++ added ∧
      added.length = [call].countP (·.constructs) := by
  cases call with
  | constructor | fieldConstructor => exact ⟨[_], rfl, rfl⟩
  | _ => exact ⟨[], (List.append_nil _).symm, rfl⟩

theorem constructors_foldl (cat : Catalog) (d : ClassDecl) (calls : List Call) :
    ∃ added, (calls.foldl (add cat) d).constructors = d.constructors ++ added ∧
      added.length = calls.countP (·.constructs) := by
  induction calls generalizing d with
  | nil => exact ⟨[], (List.append_nil _).symm, rfl⟩
  | cons call calls ih =>
      obtain ⟨first, hfirst, hone⟩ := constructors_add cat d call
      obtain ⟨rest, hrest, hlength⟩ := ih (d.add cat call)
      refine ⟨first ++ rest, ?_, ?_⟩
      · rw [List.foldl_cons, hrest, hfirst, List.append_assoc]
      · rw [List.length_append, hone, hlength, ← List.countP_append, List.singleton_append]

/-- The constructor that a call adds takes the fields that the calls before it have named, whatever is named later. -/
theorem constructors_ofCalls (cat : Catalog) (name : String) (before after : List Call) :
    (ofCalls cat name (before ++ .fieldConstructor :: after)).constructors[before.countP (·.constructs)]? =
      some ((ofCalls cat name before).fieldConstructor cat) := by
  obtain ⟨earlier, hearlier, hlength⟩ := constructors_foldl cat (new name) before
  obtain ⟨later, hlater, -⟩ := constructors_foldl cat ((ofCalls cat name before).add cat .fieldConstructor) after
  have hearlier : (ofCalls cat name before).constructors = earlier := hearlier
  have hall : (ofCalls cat name (before ++ .fieldConstructor :: after)).constructors =
      (earlier ++ [(ofCalls cat name before).fieldConstructor cat]) ++ later := by
    rw [← hearlier, ofCalls, List.foldl_append, List.foldl_cons]
    exact hlater
  rw [hall, ← hlength, List.append_assoc, List.getElem?_append_right (Nat.le_refl _), Nat.sub_self]
  rfl

/-- The last base and the last field are known if none is named later. -/
theorem allFields_ofCalls (name : String) (h : ∀ call ∈ after, call.laysOut = false) :
    (ofCalls cat name (before ++ .fieldConstructor :: after)).allFields cat =
      (ofCalls cat name before).allFields cat := by
  rw [ofCalls, List.foldl_append, List.foldl_cons, allFields_foldl h, allFields_add rfl]
  rfl

end ClassDecl

namespace Catalog

open ClassDecl (Call)

variable {cat : Catalog}

/-! ### Bases -/

/-- What is declared later leaves the fields of a class alone. -/
theorem fields_cons {earlier : List ClassDecl} (hearlier : Layered earlier) (d : ClassDecl) {c : Class}
    (h : ∀ id name, c = .declared id name → id < earlier.length) : fields ⟨d :: earlier⟩ c = fields ⟨earlier⟩ c := by
  have hown : ∀ level ∈ lineageIn earlier c, ownFields ⟨d :: earlier⟩ level = ownFields ⟨earlier⟩ level := by
    intro level hlevel
    cases level with
    | declared id name =>
        have hid : id < earlier.length := by
          rcases mem_lineageIn hearlier hlevel with hc | hlt
          · exact h id name hc.symm
          · exact hlt id name rfl
        simp only [ownFields, decl?, declIn, if_neg (Nat.ne_of_lt hid)]
    | _ => rfl
  rw [fields, fields, lineage, lineage, lineageIn_cons fun id name hc => Nat.ne_of_lt (h id name hc)]
  exact congrArg List.flatten (List.map_congr_left fun level hlevel => hown level (List.mem_reverse.mp hlevel))

/-- The fields of the class that a class extends, if there is one. -/
def inheritedFields (cat : Catalog) (c : Class) : List (String × Ty) := ((cat.base? c).map cat.fields).getD []

/-- One step along the chain: the fields of the base come first. -/
theorem fields_eq_inherited (hcat : Layered cat.decls) (c : Class) :
    cat.fields c = cat.inheritedFields c ++ cat.ownFields c := by
  rw [inheritedFields, fields, lineage_eq hcat c, List.reverse_cons, List.map_append, List.flatten_append]
  cases cat.base? c with
  | none => simp
  | some base => simp [fields]

/-- There is one property for each own field. -/
theorem fieldProperties_fields (cat : Catalog) (c : Class) :
    (cat.fieldProperties c).map (fun p => (p.name, p.ty)) = cat.ownFields c := by
  rw [fieldProperties, List.map_map]
  exact List.zipIdx_map_fst 0 (cat.ownFields c)

/-- The properties of its own fields come first among those that a class declares. -/
theorem members_properties (cat : Catalog) (c : Class) :
    ∃ others, (cat.members c).properties = cat.fieldProperties c ++ others := by
  cases c with
  | declared id name =>
      unfold members
      cases hdecl : cat.decl? (.declared id name) with
      | none => exact ⟨[], by simp [fieldProperties, ownFields, hdecl, Members.empty]⟩
      | some d => exact ⟨d.properties, rfl⟩
  | shape fields => exact ⟨[], (List.append_nil _).symm⟩
  | math => exact ⟨Predefined.math.properties, rfl⟩
  | convert => exact ⟨Predefined.convert.properties, rfl⟩

/-- A class below keeps the position that a property reads. -/
theorem getElem?_fields_of_chain (hcat : Layered cat.decls) {c a : Class}
    (h : Relation.ReflTransGen (fun c base => cat.base? c = some base) c a) {k : Nat} {f : String × Ty}
    (hf : (cat.fields a)[k]? = some f) : (cat.fields c)[k]? = some f := by
  induction h using Relation.ReflTransGen.head_induction_on with
  | refl => exact hf
  | @head c base hbase _ ih =>
      rw [fields_eq_inherited hcat c, inheritedFields, hbase]
      exact List.getElem?_append_left (List.getElem?_eq_some_iff.mp ih).1 ▸ ih

/-- A property of a field reads its position in any object. -/
theorem property_object {p : Property} {k : Nat} (hp : p.getter = .field k) {fields : List Value} {v : Value}
    (hv : fields[k]? = some v) (c : Class) (items : List Value) :
    Eval.property cat p (some (.object c fields items)) = .ok v := by
  simp only [Eval.property, hp, hv, Operation.orElse]

/-! ### Hierarchies -/

theorem decl?_self (d : ClassDecl) (earlier : List ClassDecl) (name : String) :
    decl? ⟨d :: earlier⟩ (.declared earlier.length name) = some d := by
  rw [decl?, declIn, if_pos rfl]

/-- A new class has the fields that are known at the end of its description. -/
theorem fields_self {earlier : List ClassDecl} {d : ClassDecl} (hcat : Layered (d :: earlier)) (name : String) :
    fields ⟨d :: earlier⟩ (.declared earlier.length name) = d.allFields ⟨earlier⟩ := by
  rw [fields_eq_inherited hcat, inheritedFields, base?, decl?_self]
  cases hb : d.base with
  | none => simp [ownFields, decl?_self, ClassDecl.allFields, hb]
  | some base =>
      have hbase := fields_cons hcat.2 d fun id name hc => hcat.1 id name (hc ▸ hb)
      simp [ownFields, decl?_self, ClassDecl.allFields, hb, hbase]

/-- Classes as they are described: the name and the calls of each, the latest first. -/
abbrev Hierarchy := List (String × List Call)

/-- The catalog of a hierarchy. -/
def ofCalls : Hierarchy → Catalog
  | [] => .empty
  | (name, calls) :: earlier => ((ofCalls earlier).build name calls).1

/-- Classes are based only on those that were described before them. -/
def BasesFirst : Hierarchy → Prop
  | [] => True
  | (_, calls) :: earlier =>
    (∀ id name, Call.base (.declared id name) ∈ calls → id < earlier.length) ∧ BasesFirst earlier

def callsIn : Hierarchy → Nat → List Call
  | [], _ => []
  | (_, calls) :: earlier, id => if id = earlier.length then calls else callsIn earlier id

/-- The calls that describe a class. The shape of a projection is described by its fields, and then gets its
constructor. -/
def callsOf (classes : Hierarchy) : Class → List Call
  | .declared id _ => callsIn classes id
  | .shape fields => Call.ofFields fields.toList
  | _ => []

variable {classes : Hierarchy}

theorem length_ofCalls (classes : Hierarchy) : (ofCalls classes).decls.length = classes.length := by
  induction classes with
  | nil => rfl
  | cons _ _ ih => exact congrArg (· + 1) ih

theorem layered_ofCalls (h : BasesFirst classes) : Layered (ofCalls classes).decls := by
  induction classes with
  | nil => trivial
  | cons last earlier ih =>
      refine ⟨fun id name hbase => ?_, ih h.2⟩
      rcases ClassDecl.mem_of_base hbase with hnone | hmem
      · cases hnone
      · exact length_ofCalls earlier ▸ h.1 id name hmem

theorem lt_of_callsIn {id : Nat} (h : callsIn classes id ≠ []) : id < classes.length := by
  induction classes with
  | nil => exact absurd rfl h
  | cons last earlier ih =>
      rw [callsIn] at h
      split at h
      · rename_i hid
        exact hid ▸ Nat.lt_succ_self _
      · exact Nat.lt_succ_of_lt (ih h)

/-- A class has the constructors that its calls made in the catalog of their time, and the fields that were known after
the last of them. -/
theorem exists_decl (h : BasesFirst classes) {c : Class} (hcalls : callsOf classes c ≠ []) :
    ∃ earlier name, (ofCalls classes).constructors (.cls c) =
        (ClassDecl.ofCalls earlier name (callsOf classes c)).constructors ∧
      (ofCalls classes).fields c = (ClassDecl.ofCalls earlier name (callsOf classes c)).allFields earlier := by
  simp only [constructors_cls]
  cases c with
  | math | convert => exact absurd rfl hcalls
  | shape fields =>
      refine ⟨ofCalls classes, "", rfl, ?_⟩
      rw [callsOf, ClassDecl.ofCalls_ofFields, fields_shape]
      rfl
  | declared id written =>
      induction classes with
      | nil => exact absurd rfl hcalls
      | cons last earlier ih =>
          have hlayered := layered_ofCalls h
          have hlength := length_ofCalls earlier
          rw [callsOf, callsIn] at hcalls ⊢
          split at hcalls
          · rename_i hid
            rw [hid, if_pos rfl, ← hlength]
            refine ⟨ofCalls earlier, last.1, ?_, fields_self hlayered written⟩
            rw [members, ofCalls, build, declare, decl?_self]
          · rename_i hid
            obtain ⟨before, name, hconstructors, hfields⟩ := ih h.2 hcalls
            have hlt : id < (ofCalls earlier).decls.length := hlength ▸ lt_of_callsIn hcalls
            rw [if_neg hid]
            refine ⟨before, name, Eq.trans ?_ hconstructors, (fields_cons hlayered.2 _ ?_).trans hfields⟩
            · simp only [members, ofCalls, build, declare, decl?, declIn, if_neg (Nat.ne_of_lt hlt)]
              cases declIn (ofCalls earlier).decls id <;> rfl
            · rintro _ _ ⟨⟩
              exact hlt

/-- A constructor that is added after the last base and the last field takes all fields. -/
theorem exists_takesFields (h : BasesFirst classes) {c : Class} {before after : List Call}
    (hcalls : callsOf classes c = before ++ .fieldConstructor :: after)
    (hafter : ∀ call ∈ after, call.laysOut = false) :
    ∃ m, ((ofCalls classes).constructors (.cls c))[before.countP (·.constructs)]? = some m ∧
      m.TakesFields (ofCalls classes) c := by
  obtain ⟨earlier, name, hconstructors, hfields⟩ := exists_decl h (c := c) (by rw [hcalls]; simp)
  rw [hcalls] at hconstructors hfields
  refine ⟨(ClassDecl.ofCalls earlier name before).fieldConstructor earlier, ?_, rfl, ?_⟩
  · rw [hconstructors]
    exact ClassDecl.constructors_ofCalls earlier name before after
  · rw [hfields, ClassDecl.allFields_ofCalls name hafter]
    rfl

/-- Layouts are stable under inheritance. For a class and one that a chain of bases leads to: the fields of the latter
are the first ones of the former; the properties that it declares for its own fields, one for each, read positions where
the class below has a field of that name and type. Every constructor for the fields that is added after the last base
and the last field takes them in the order of the layout, so that in the object it makes every such property reads the
value for its field. -/
theorem layout_stable (hbases : BasesFirst classes) {c a : Class}
    (h : Relation.ReflTransGen (fun c base => (ofCalls classes).base? c = some base) c a) :
    let cat := ofCalls classes
    cat.fields a <+: cat.fields c ∧
    ((cat.fieldProperties a).map (fun p => (p.name, p.ty)) = cat.ownFields a ∧
      ∃ others, (cat.members a).properties = cat.fieldProperties a ++ others) ∧
    (∀ p ∈ cat.fieldProperties a, ∃ k, p.getter = .field k ∧ (cat.fields c)[k]? = some (p.name, p.ty)) ∧
    ∀ before after, callsOf classes c = before ++ .fieldConstructor :: after →
      (∀ call ∈ after, call.laysOut = false) →
      ∃ m, (cat.constructors (.cls c))[before.countP (·.constructs)]? = some m ∧
        m.params = (cat.fields c).map (·.2) ∧
        ∀ args : List Value, args.length = (cat.fields c).length →
          ∃ object, Eval.construct cat (.cls c) m args = .ok object ∧
            ∀ p ∈ cat.fieldProperties a, ∃ k v, p.getter = .field k ∧ (cat.fields c)[k]? = some (p.name, p.ty) ∧
              args[k]? = some v ∧ Eval.property cat p (some object) = .ok v := by
  intro cat
  have hcat : Layered cat.decls := layered_ofCalls hbases
  have hplace : ∀ p ∈ cat.fieldProperties a, ∃ k, p.getter = .field k ∧ (cat.fields c)[k]? = some (p.name, p.ty) := by
    intro p hp
    obtain ⟨-, k, hk, hf⟩ := mem_fieldProperties hp
    exact ⟨k, hk, getElem?_fields_of_chain hcat h hf⟩
  have hfront : cat.fields a <+: cat.fields c := fields_prefix hcat ((isSubclass_iff_chain hcat).mpr h)
  refine ⟨hfront, ⟨cat.fieldProperties_fields a, cat.members_properties a⟩, hplace,
    fun before after hcalls hafter => ?_⟩
  obtain ⟨m, hm, htakes⟩ := exists_takesFields hbases hcalls hafter
  refine ⟨m, hm, htakes.2, fun args hargs =>
    ⟨.object c args [], Operation.construct_takesFields htakes args, fun p hp => ?_⟩⟩
  obtain ⟨k, hk, hf⟩ := hplace p hp
  have hlt : k < args.length := hargs ▸ (List.getElem?_eq_some_iff.mp hf).1
  have hv : args[k]? = some args[k] := List.getElem?_eq_getElem hlt
  exact ⟨k, args[k], hk, hf, hv, property_object hk hv c []⟩

/-- Employees are persons, and persons are entities; the first and the last have a field of the same name. -/
def staff : Hierarchy :=
  [("Employee", [.field "Id" .string, .base (.declared 1 "Person"), .fieldConstructor, .element .string]),
   ("Person", [.base (.declared 0 "Entity"), .field "Name" .string]),
   ("Entity", [.field "Id" .int32])]

theorem staff_basesFirst : BasesFirst staff := ⟨by simp, by simp, by simp, trivial⟩

/-- An employee has two numbers, and entities know the first one. -/
theorem layout_stable_staff :
    BasesFirst staff ∧
    ∃ m ∈ (ofCalls staff).constructors (.cls (.declared 2 "Employee")), m.params = [.int32, .string, .string] ∧
      ∃ object, Eval.construct (ofCalls staff) (.cls (.declared 2 "Employee")) m
          [.char 'a', .char 'b', .char 'c'] = .ok object ∧
        ∀ p ∈ (ofCalls staff).fieldProperties (.declared 0 "Entity"),
          p.name = "Id" ∧ Eval.property (ofCalls staff) p (some object) = .ok (.char 'a') := by
  have hchain : Relation.ReflTransGen (fun c base => (ofCalls staff).base? c = some base) (.declared 2 "Employee")
      (.declared 0 "Entity") := .head (b := .declared 1 "Person") rfl (.single rfl)
  obtain ⟨-, -, -, hread⟩ := layout_stable staff_basesFirst hchain
  obtain ⟨m, hm, hparams, hmade⟩ := hread [.field "Id" .string, .base (.declared 1 "Person")] [.element .string] rfl
    (by simp [ClassDecl.Call.laysOut])
  obtain ⟨object, hobject, hproperties⟩ := hmade [.char 'a', .char 'b', .char 'c'] rfl
  refine ⟨staff_basesFirst, m, List.mem_of_getElem? hm, hparams, object, hobject, fun p hp => ?_⟩
  obtain ⟨k, v, hk, -, hv, hvalue⟩ := hproperties p hp
  obtain rfl : p = ⟨"Id", .int32, false, .field 0⟩ := List.mem_singleton.mp hp
  cases hk
  cases hv
  exact ⟨rfl, hvalue⟩

/-- A constructor that is added before the base is named lacks the inherited fields. -/
example :
    let cat := ofCalls [("D", [.field "Y" .string, .fieldConstructor, .base (.declared 0 "B")]),
      ("B", [.field "X" .int32])]
    cat.fields (.declared 1 "D") = [("X", .int32), ("Y", .string)] ∧
      (cat.constructors (.cls (.declared 1 "D"))).map (·.params) = [[.string]] := by decide

end Catalog

end RowQuery
