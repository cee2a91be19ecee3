import Mathlib.Data.List.Induction
import RowQuery.Proofs.TypedEvaluation

/-!
Shapes over a run of requests. A request for the shape with some fields is answered with its class, its number
and its name; the first request for a list of fields makes the shape. Shapes are never changed or removed, so
every answer of a run can be read off the shapes at its end, and off those of any longer run. The numbers count
the different lists in the order of their first requests. A list of fields may mention shapes that were made
before: to tell two lists apart it is enough to compare such shapes by their numbers, as enumerations and
declared classes are compared by the numbers of their declarations.
-/

namespace RowQuery

/-- The texts of different numbers are different. -/
theorem Text.eq_of_toString {m n : Nat} (h : toString m = toString n) : m = n := by
  have hdigits : Nat.toDigits 10 m = Nat.toDigits 10 n := by
    rw [← Nat.toList_repr, ← Nat.toList_repr]
    exact congrArg String.toList h
  rw [← Nat.ofDigitChars_ten_toDigits (n := m), hdigits, Nat.ofDigitChars_ten_toDigits]

/-! ### Types by their numbers -/

/-- Whether two classes have one number, as declarations or as shapes. -/
def Class.sameNumber (s : Shapes) : Class → Class → Bool
  | .declared i _, .declared j _ => i == j
  | .shape f, .shape g => s.number f == s.number g
  | c, d => c == d

/-- Whether two types are the same if declarations and shapes are compared by their numbers only. -/
def Ty.sameNumber (s : Shapes) : Ty → Ty → Bool
  | .nullable t, .nullable u => t.sameNumber s u
  | .list t, .list u => t.sameNumber s u
  | .grouping k t, .grouping l u => k.sameNumber s l && t.sameNumber s u
  | .enum e, .enum f => e.id == f.id
  | .cls c, .cls d => c.sameNumber s d
  | t, u => t == u

/-- Whether two lists hold the same names with the same types, in the same order. -/
def Shapes.sameFields (s : Shapes) : List (String × Ty) → List (String × Ty) → Bool
  | [], [] => true
  | (name, t) :: fs, (name', u) :: gs => name == name' && t.sameNumber s u && s.sameFields fs gs
  | _, _ => false

/-- Whether a type mentions only what there is: the enumerations by their numbers, the declared classes, and the
shapes made so far. -/
def Ty.isKnown (cat : Catalog) (enums : Nat → EnumType) (s : Shapes) : Ty → Bool
  | .nullable t => t.isKnown cat enums s
  | .list t => t.isKnown cat enums s
  | .grouping k t => k.isKnown cat enums s && t.isKnown cat enums s
  | .enum e => e == enums e.id
  | .cls (.declared id name) => (cat.decl? (.declared id name)).any (·.name == name)
  | .cls (.shape fields) => s.made.contains fields
  | _ => true

namespace Shapes

variable {cat : Catalog} {enums : Nat → EnumType} {s s' : Shapes} {f g : Fields}

/-! ### One request -/

theorem use_of_mem (h : f ∈ s.made) : s.use f = s := by
  rw [use, if_pos (List.contains_iff_mem.mpr h)]

theorem made_use_of_not_mem (h : f ∉ s.made) : (s.use f).made = s.made ++ [f] := by
  rw [use, if_neg (by rwa [List.contains_iff_mem])]

theorem mem_use_self (s : Shapes) (f : Fields) : f ∈ (s.use f).made := by
  by_cases h : f ∈ s.made
  · rwa [use_of_mem h]
  · rw [made_use_of_not_mem h]
    exact List.mem_append_right _ (List.mem_singleton.mpr rfl)

/-- A use of a shape leaves those made before as they are. -/
theorem prefix_use (s : Shapes) (f : Fields) : s.made <+: (s.use f).made := by
  by_cases h : f ∈ s.made
  · exact ⟨[], by rw [use_of_mem h, List.append_nil]⟩
  · rw [made_use_of_not_mem h]
    exact List.prefix_append _ _

theorem number_of_extension (h : s.made <+: s'.made) (hf : f ∈ s.made) : s'.number f = s.number f := by
  obtain ⟨later, hlater⟩ := h
  rw [number, number, ← hlater, List.idxOf_append_of_mem hf]

theorem answer_of_extension {fields : List (String × Ty)} (h : s.made <+: s'.made)
    (hf : Fields.ofList fields ∈ s.made) : s'.answer fields = s.answer fields := by
  simp only [answer, Class.ofFields, Class.text, name, number_of_extension h hf]

theorem number_inj (hf : f ∈ s.made) : s.number f = s.number g ↔ f = g := by
  rw [number, number, Nat.add_right_cancel_iff, List.idxOf_inj hf]

theorem name_inj : s.name f = s.name g ↔ s.number f = s.number g :=
  ⟨fun h => Text.eq_of_toString ((String.append_right_inj _).mp h), fun h => by rw [name, name, h]⟩

/-! ### Types that are known -/

/-- Known classes of one number are one class: a declaration has one name, and a shape made so far is found at
its number. -/
theorem eq_of_sameNumber_cls {c d : Class} (hc : (Ty.cls c).isKnown cat enums s)
    (hd : (Ty.cls d).isKnown cat enums s) (h : c.sameNumber s d) : c = d := by
  unfold Class.sameNumber at h
  split at h
  · rename_i i name j name'
    obtain rfl : i = j := beq_iff_eq.mp h
    simp only [Ty.isKnown, Catalog.decl?, Option.any_eq_true, beq_iff_eq] at hc hd
    obtain ⟨d, hdecl, rfl⟩ := hc
    obtain ⟨d', hdecl', rfl⟩ := hd
    obtain rfl : d = d' := Option.some.inj (hdecl.symm.trans hdecl')
    rfl
  · rename_i f g
    have hf : f ∈ s.made := List.contains_iff_mem.mp hc
    rw [(number_inj hf).mp (beq_iff_eq.mp h)]
  · exact beq_iff_eq.mp h

theorem eq_of_sameNumber {t u : Ty} (ht : t.isKnown cat enums s) (hu : u.isKnown cat enums s)
    (h : t.sameNumber s u) : t = u := by
  fun_induction Ty.sameNumber s t u with
  | case1 t u ih => rw [ih ht hu h]
  | case2 t u ih => rw [ih ht hu h]
  | case3 k t l u ihk iht =>
      simp only [Ty.isKnown, Bool.and_eq_true] at ht hu h
      rw [ihk ht.1 hu.1 h.1, iht ht.2 hu.2 h.2]
  | case4 e f =>
      have he : e = enums e.id := beq_iff_eq.mp ht
      have hf : f = enums f.id := beq_iff_eq.mp hu
      rw [he, hf, beq_iff_eq.mp h]
  | case5 c d => rw [eq_of_sameNumber_cls ht hu h]
  | case6 t u => exact beq_iff_eq.mp h

theorem sameNumber_self (s : Shapes) : ∀ t : Ty, t.sameNumber s t
  | .nullable t => sameNumber_self s t
  | .list t => sameNumber_self s t
  | .grouping k t => by simp [Ty.sameNumber, sameNumber_self s k, sameNumber_self s t]
  | .cls c => by cases c <;> simp [Ty.sameNumber, Class.sameNumber]
  | .object | .boolean | .char | .string | .int _ | .single | .double | .decimal | .dateTime | .timeSpan
  | .enum _ => by simp [Ty.sameNumber]

/-- Whether all types of a list of fields are known. -/
def knows (cat : Catalog) (enums : Nat → EnumType) (s : Shapes) (fields : List (String × Ty)) : Bool :=
  fields.all fun field => field.2.isKnown cat enums s

/-- Lists of fields of known types can be told apart by numbers. -/
theorem sameFields_iff {fs gs : List (String × Ty)} (hf : s.knows cat enums fs) (hg : s.knows cat enums gs) :
    s.sameFields fs gs ↔ fs = gs := by
  induction fs generalizing gs with
  | nil => cases gs <;> simp [sameFields]
  | cons field fs ih =>
      cases gs with
      | nil => simp [sameFields]
      | cons field' gs =>
          obtain ⟨name, t⟩ := field
          obtain ⟨name', u⟩ := field'
          simp only [knows, List.all_cons, Bool.and_eq_true] at hf hg
          simp only [sameFields, Bool.and_eq_true, beq_iff_eq, List.cons.injEq, Prod.mk.injEq, ih hf.2 hg.2]
          constructor
          · rintro ⟨⟨rfl, h⟩, rfl⟩
            exact ⟨⟨rfl, eq_of_sameNumber hf.1 hg.1 h⟩, rfl⟩
          · rintro ⟨⟨rfl, rfl⟩, rfl⟩
            exact ⟨⟨rfl, sameNumber_self s t⟩, rfl⟩

theorem isKnown_of_extension (h : s.made <+: s'.made) {t : Ty} (ht : t.isKnown cat enums s) :
    t.isKnown cat enums s' := by
  fun_induction Ty.isKnown cat enums s t with
  | case1 t ih | case2 t ih => exact ih ht
  | case3 k t ihk iht =>
      obtain ⟨hk, ht⟩ := Bool.and_eq_true_iff.mp ht
      exact Bool.and_eq_true_iff.mpr ⟨ihk hk, iht ht⟩
  | case4 | case5 => exact ht
  | case6 fields => exact List.contains_iff_mem.mpr (h.subset (List.contains_iff_mem.mp ht))
  | case7 t => simp_all [Ty.isKnown]

/-! ### Runs of requests -/

/-- Asks for one shape after the other. -/
def requestAll (s : Shapes) : List (List (String × Ty)) → List Answer × Shapes
  | [] => ([], s)
  | fields :: requests =>
    let first := s.request fields
    let rest := first.2.requestAll requests
    (first.1 :: rest.1, rest.2)

/-- Whether every list of fields mentions only what there is when it is asked for. -/
def knowsAll (cat : Catalog) (enums : Nat → EnumType) (s : Shapes) : List (List (String × Ty)) → Bool
  | [] => true
  | fields :: requests => s.knows cat enums fields && (s.request fields).2.knowsAll cat enums requests

variable {requests : List (List (String × Ty))}

theorem requestAll_concat (s : Shapes) (requests : List (List (String × Ty))) (fields : List (String × Ty)) :
    s.requestAll (requests ++ [fields]) =
      ((s.requestAll requests).1 ++ [((s.requestAll requests).2.request fields).1],
        ((s.requestAll requests).2.request fields).2) := by
  induction requests generalizing s with
  | nil => rfl
  | cons first requests ih => simp [requestAll, ih]

theorem prefix_requestAll (s : Shapes) (requests : List (List (String × Ty))) :
    s.made <+: (s.requestAll requests).2.made := by
  induction requests generalizing s with
  | nil => exact List.prefix_rfl
  | cons fields requests ih => exact (prefix_use s _).trans (ih _)

theorem mem_requestAll {fields : List (String × Ty)} (h : fields ∈ requests) :
    Fields.ofList fields ∈ (s.requestAll requests).2.made := by
  induction requests generalizing s with
  | nil => cases h
  | cons first requests ih =>
      rcases List.mem_cons.mp h with rfl | h
      · exact (prefix_requestAll _ requests).subset (mem_use_self s _)
      · exact ih h

/-- The answers of a run are those that its last shapes would give to all requests. -/
theorem answers_eq (s : Shapes) (requests : List (List (String × Ty))) :
    (s.requestAll requests).1 = requests.map (s.requestAll requests).2.answer := by
  induction requests generalizing s with
  | nil => rfl
  | cons fields requests ih =>
      have hfirst := answer_of_extension (prefix_requestAll (s.request fields).2 requests) (mem_use_self s _)
      exact congrArg₂ List.cons hfirst.symm (ih _)

theorem exists_request {p : List (String × Ty) × Answer} (h : p ∈ requests.zip (s.requestAll requests).1) :
    ∃ fields ∈ requests, p = (fields, (s.requestAll requests).2.answer fields) := by
  rw [answers_eq, ← List.map_prod_left_eq_zip] at h
  obtain ⟨fields, hfields, rfl⟩ := List.mem_map.mp h
  exact ⟨fields, hfields, rfl⟩

theorem knows_of_extension {fields : List (String × Ty)} (h : s.made <+: s'.made) (hf : s.knows cat enums fields) :
    s'.knows cat enums fields :=
  List.all_eq_true.mpr fun field hfield => isKnown_of_extension h (List.all_eq_true.mp hf field hfield)

/-- What is known when it is asked for is known at the end. -/
theorem knows_requestAll (h : s.knowsAll cat enums requests) {fields : List (String × Ty)}
    (hf : fields ∈ requests) : (s.requestAll requests).2.knows cat enums fields := by
  induction requests generalizing s with
  | nil => cases hf
  | cons first requests ih =>
      obtain ⟨hfirst, hrest⟩ := Bool.and_eq_true_iff.mp h
      rcases List.mem_cons.mp hf with rfl | hf
      · exact knows_of_extension (prefix_requestAll s _) hfirst
      · exact ih hrest hf

/-- Asking again changes nothing. -/
theorem request_of_extension (hlater : (s.requestAll requests).2.made <+: s'.made) {fields : List (String × Ty)}
    (hf : fields ∈ requests) : s'.request fields = ((s.requestAll requests).2.answer fields, s') := by
  have hmade := mem_requestAll (s := s) hf
  rw [request, use_of_mem (hlater.subset hmade), answer_of_extension hlater hmade]

/-! ### Numbers -/

theorem eraseDups_concat {α : Type} [BEq α] [LawfulBEq α] (xs : List α) (a : α) :
    (xs ++ [a]).eraseDups = if xs.contains a then xs.eraseDups else xs.eraseDups ++ [a] := by
  rw [List.eraseDups_append, List.removeAll, List.filter_singleton]
  by_cases h : a ∈ xs <;> simp [h, List.eraseDups_cons]

/-- One more request is one more number if its list of fields is new, and else an old number. -/
theorem numbers_request {numbers : List Nat} (h : numbers.eraseDups = List.range' 1 s.made.length)
    (fields : List (String × Ty)) :
    (numbers ++ [(s.request fields).1.number]).eraseDups = List.range' 1 (s.request fields).2.made.length := by
  have hmem : ∀ k, k ∈ numbers ↔ 1 ≤ k ∧ k < 1 + s.made.length := by
    intro k
    rw [← List.mem_eraseDups, h, List.mem_range'_1]
  show (numbers ++ [(s.use (.ofList fields)).number (.ofList fields)]).eraseDups =
    List.range' 1 (s.use (.ofList fields)).made.length
  rw [eraseDups_concat]
  by_cases hmade : Fields.ofList fields ∈ s.made
  · have hlt := List.idxOf_lt_length_of_mem hmade
    have hold : s.number (.ofList fields) ∈ numbers := (hmem _).mpr (by rw [number]; omega)
    rw [use_of_mem hmade, if_pos (List.contains_iff_mem.mpr hold), h]
  · have hnumber : (s.use (.ofList fields)).number (.ofList fields) = 1 + s.made.length := by
      rw [number, made_use_of_not_mem hmade, List.idxOf_append_of_notMem hmade, List.idxOf_cons_self]
      omega
    have hnew : ¬numbers.contains (1 + s.made.length) := by
      rw [List.contains_iff_mem, hmem]
      omega
    rw [hnumber, if_neg hnew, h, made_use_of_not_mem hmade, List.length_append, List.length_singleton,
      List.range'_1_concat]

/-- The numbers of a run, without repetitions, count from one. -/
theorem numbers_requestAll (requests : List (List (String × Ty))) :
    ((empty.requestAll requests).1.map Answer.number).eraseDups =
      List.range' 1 (empty.requestAll requests).2.made.length := by
  induction requests using List.reverseRecOn with
  | nil => rfl
  | append_singleton requests fields ih =>
      rw [requestAll_concat, List.map_append]
      exact numbers_request ih fields

theorem ofList_injective : Function.Injective Fields.ofList := by
  intro fs gs h
  rw [← Fields.toList_ofList fs, h, Fields.toList_ofList]

/-- The shapes made in a run are the different lists of fields in the order of their first requests. -/
theorem made_requestAll (requests : List (List (String × Ty))) :
    (empty.requestAll requests).2.made = requests.eraseDups.map Fields.ofList := by
  induction requests using List.reverseRecOn with
  | nil => rfl
  | append_singleton requests fields ih =>
      rw [requestAll_concat, eraseDups_concat]
      show ((empty.requestAll requests).2.use (.ofList fields)).made = _
      have hmem : Fields.ofList fields ∈ (empty.requestAll requests).2.made ↔ requests.contains fields := by
        rw [ih, List.mem_map_of_injective ofList_injective, List.mem_eraseDups, List.contains_iff_mem]
      by_cases hmade : Fields.ofList fields ∈ (empty.requestAll requests).2.made
      · rw [use_of_mem hmade, if_pos (hmem.mp hmade), ih]
      · rw [made_use_of_not_mem hmade, if_neg (mt hmem.mpr hmade), ih, List.map_append, List.map_singleton]

theorem constructors_ofFields (cat : Catalog) (fields : List (String × Ty)) :
    cat.constructors (.cls (.ofFields fields)) = [.constructor (fields.map (·.2)) (.builtin .objectNew)] := by
  rw [Catalog.constructors_cls, Class.ofFields, Catalog.members, ClassDecl.ofCalls_ofFields, Fields.toList_ofList]
  rfl

/-- Whatever is asked for one after the other, every answer is a class with just the fields asked for and one
constructor for them, named by its number. Answers to equal lists are one class, and to different lists classes
with different numbers and names; for lists that mention only what there is when they are asked for, equality is
that of the names and of the types by their numbers. The numbers count from one in the order of the first requests.
Asking again at any later time gives the same answer and makes nothing. -/
theorem requestAll_invariant (cat : Catalog) (requests : List (List (String × Ty))) :
    let run := empty.requestAll requests
    let pairs := requests.zip run.1
    run.1.length = requests.length ∧
    (∀ p ∈ pairs, cat.fields p.2.shape = p.1 ∧
      cat.constructors (.cls p.2.shape) = [.constructor (p.1.map (·.2)) (.builtin .objectNew)] ∧
      p.2.name = "DynamicClass" ++ toString p.2.number) ∧
    (∀ p ∈ pairs, ∀ q ∈ pairs, (p.2.shape = q.2.shape ↔ p.1 = q.1) ∧ (p.2.number = q.2.number ↔ p.1 = q.1) ∧
      (p.2.name = q.2.name ↔ p.1 = q.1)) ∧
    (∀ enums, empty.knowsAll cat enums requests → ∀ p ∈ pairs, ∀ q ∈ pairs,
      (p.2.shape = q.2.shape ↔ run.2.sameFields p.1 q.1)) ∧
    (run.1.map Answer.number).eraseDups = List.range' 1 requests.eraseDups.length ∧
    ∀ later, ∀ p ∈ pairs, (run.2.requestAll later).2.request p.1 = (p.2, (run.2.requestAll later).2) := by
  intro run pairs
  have hshape : ∀ fs gs : List (String × Ty), Class.ofFields fs = Class.ofFields gs ↔ fs = gs := fun fs gs =>
    ⟨fun h => ofList_injective (Class.shape.inj h), fun h => h ▸ rfl⟩
  have hnumber : ∀ fs ∈ requests, ∀ gs, run.2.number (.ofList fs) = run.2.number (.ofList gs) ↔ fs = gs :=
    fun fs hfs gs => (number_inj (mem_requestAll hfs)).trans ofList_injective.eq_iff
  refine ⟨by rw [answers_eq, List.length_map], ?_, ?_, ?_, ?_, ?_⟩
  · intro p hp
    obtain ⟨fields, -, rfl⟩ := exists_request hp
    exact ⟨Catalog.fields_ofFields cat fields, constructors_ofFields cat fields, rfl⟩
  · intro p hp q hq
    obtain ⟨fs, hfs, rfl⟩ := exists_request hp
    obtain ⟨gs, hgs, rfl⟩ := exists_request hq
    exact ⟨hshape fs gs, hnumber fs hfs gs, name_inj.trans (hnumber fs hfs gs)⟩
  · intro enums hknown p hp q hq
    obtain ⟨fs, hfs, rfl⟩ := exists_request hp
    obtain ⟨gs, hgs, rfl⟩ := exists_request hq
    exact (hshape fs gs).trans (sameFields_iff (knows_requestAll hknown hfs) (knows_requestAll hknown hgs)).symm
  · rw [numbers_requestAll, made_requestAll, List.length_map]
  · intro later p hp
    obtain ⟨fields, hfields, rfl⟩ := exists_request hp
    exact request_of_extension (prefix_requestAll run.2 later) hfields

/-- A name in another case, fields in another order, a shape inside a shape, and two enumerations that differ in
nothing but their numbers. -/
theorem requestAll_invariant_levels :
    let level : Nat → EnumType := fun id => .ofNames id "Level" ["Low", "High"]
    let cell : List (String × Ty) := [("X", .int32), ("L", .enum (level 0))]
    let requests := [cell, cell.reverse, [("x", .int32), ("L", .enum (level 0))],
      [("X", .int32), ("L", .enum (level 1))], [("C", .list (.cls (.ofFields cell)))], cell]
    let run := empty.requestAll requests
    empty.knowsAll .empty level requests ∧ run.1.map Answer.number = [1, 2, 3, 4, 5, 1] ∧
      (run.1.map Answer.number).eraseDups = List.range' 1 5 ∧
      ∀ p ∈ requests.zip run.1, ∀ q ∈ requests.zip run.1, p.2.shape = q.2.shape ↔ run.2.sameFields p.1 q.1 := by
  intro level cell requests run
  have hknown : empty.knowsAll .empty level requests := by decide +kernel
  obtain ⟨-, -, -, hsame, hnumbers, -⟩ := requestAll_invariant .empty requests
  exact ⟨hknown, by decide +kernel, hnumbers, hsame level hknown⟩

end Shapes

end RowQuery
