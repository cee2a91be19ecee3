import RowQuery.Proofs.NameFolding
import RowQuery.Proofs.Resolution
import RowQuery.Proofs.Scanning
import RowQuery.Schema

/-!
The names of types in schemas. A type that is built from predefined and declared ones by lists and nullable forms has
its text for a name, and blank space may stand around it and inside the brackets: what is taken off the ends of a
text, the blank space, a question mark or the brackets of a list, is always what was put there last. Nothing but such
types is ever named, and the reading of names ends on every text.
-/

namespace RowQuery

/-! ### Names -/

namespace Lexeme

/-- The characters of an identifier. -/
def isName : List Char → Bool
  | [] => false
  | c :: cs => startsName c && cs.all continuesName

/-- A name is made of characters that are not blank, and neither a question mark nor a bracket. -/
theorem mem_isName {cs : List Char} (h : isName cs) {c : Char} (hc : c ∈ cs) :
    Text.isBlank c = false ∧ c ≠ '?' ∧ c ≠ '<' := by
  have hname : startsName c ∨ continuesName c := by
    cases cs with
    | nil => cases hc
    | cons d ds =>
        simp only [isName, Bool.and_eq_true, List.all_eq_true] at h
        rcases List.mem_cons.mp hc with rfl | hc
        · exact Or.inl h.1
        · exact Or.inr (h.2 c hc)
  refine ⟨?_, ?_, ?_⟩
  · rcases hname with hstart | hcontinue
    · exact Bool.eq_false_iff.mpr fun hblank => by simp [startsName_blank hblank] at hstart
    · exact Bool.eq_false_iff.mpr fun hblank => by simp [continuesName_blank hblank] at hcontinue
  · rintro rfl
    revert hname
    decide
  · rintro rfl
    revert hname
    decide

end Lexeme

namespace Text

theorem sameName_iff {a b : String} : sameName a b ↔ fold a = fold b := by
  rw [sameName, beq_iff_eq, fold, fold, String.ofList_inj]

variable {cs before after : List Char}

theorem dropWhile_append_blank (h : ∀ c ∈ after, isBlank c) :
    (cs ++ after).dropWhile isBlank = cs.dropWhile isBlank ++ if (cs.dropWhile isBlank).isEmpty then [] else after := by
  rw [List.dropWhile_append]
  split
  · rename_i hempty
    rw [List.isEmpty_iff.mp hempty, List.dropWhile_eq_nil_iff.mpr h]
    rfl
  · rfl

/-- Blank space at the ends is taken away. -/
theorem trimChars_padded (hbefore : ∀ c ∈ before, isBlank c) (hafter : ∀ c ∈ after, isBlank c) :
    trimChars (before ++ cs ++ after) = trimChars cs := by
  rw [trimChars, List.append_assoc, List.dropWhile_append_of_pos hbefore, dropWhile_append_blank hafter, trimChars]
  split
  · rw [List.append_nil]
  · rw [List.reverse_append, List.dropWhile_append_of_pos (by simpa using hafter)]

/-- A last character that is not blank stays where it is. -/
theorem trimChars_concat (cs : List Char) {c : Char} (hc : isBlank c = false) :
    trimChars (cs ++ [c]) = cs.dropWhile isBlank ++ [c] := by
  have hdrop : (cs ++ [c]).dropWhile isBlank = cs.dropWhile isBlank ++ [c] := by
    rw [List.dropWhile_append]
    split
    · rename_i hempty
      rw [List.isEmpty_iff.mp hempty, List.dropWhile_cons, hc]
      rfl
    · rfl
  rw [trimChars, hdrop, List.reverse_concat, List.dropWhile_cons, hc]
  simp

theorem trimChars_dropWhile (cs : List Char) : trimChars (cs.dropWhile isBlank) = trimChars cs := by
  have hblank : ∀ c ∈ cs.takeWhile isBlank, isBlank c := List.all_eq_true.mp List.all_takeWhile
  have hpadded : trimChars (cs.takeWhile isBlank ++ cs.dropWhile isBlank ++ []) = trimChars (cs.dropWhile isBlank) :=
    trimChars_padded hblank (by simp)
  rwa [List.takeWhile_append_dropWhile, List.append_nil, eq_comm] at hpadded

theorem trimChars_of_solid (h : ∀ c ∈ cs, isBlank c = false) : trimChars cs = cs := by
  have hsolid : ∀ {ds : List Char}, (∀ c ∈ ds, isBlank c = false) → ds.dropWhile isBlank = ds := by
    intro ds hds
    cases ds with
    | nil => rfl
    | cons d ds => rw [List.dropWhile_cons, hds d List.mem_cons_self]; rfl
  rw [trimChars, hsolid h, hsolid (by simpa using h), List.reverse_reverse]

end Text

/-- The types that a type is built from by nullable forms, lists and groupings, itself included. -/
def Ty.parts : Ty → List Ty
  | .nullable t => .nullable t :: t.parts
  | .list t => .list t :: t.parts
  | .grouping key element => .grouping key element :: (key.parts ++ element.parts)
  | t => [t]

namespace Schema

/-! ### Declared types -/

/-- Declared types: enumerations and classes, no two of one name in any case, and none with a predefined name. -/
structure Declared (types : List Ty) : Prop where
  kind : ∀ t ∈ types, (∃ e, t = .enum e) ∨ ∃ id name, t = .cls (.declared id name)
  free : ∀ t ∈ types, ∀ name ∈ Context.nameOf? t, Ty.predefined? name = none
  distinct : types.Pairwise fun t u => ∀ a ∈ Context.nameOf? t, ∀ b ∈ Context.nameOf? u, Text.sameName a b = false

/-- A declared type is found under its name in any case. -/
theorem Declared.declared?_eq {types : List Ty} (h : Declared types) {t : Ty} {name name' : String} (ht : t ∈ types)
    (hname : Context.nameOf? t = some name) (hsame : Text.sameName name name') : declared? types name' = some t := by
  obtain ⟨before, after, rfl⟩ := List.append_of_mem ht
  refine List.find?_eq_some_iff_append.mpr ⟨by simpa [hname] using hsame, before, after, rfl, fun u hu => ?_⟩
  have hother := (List.pairwise_append.mp h.distinct).2.2 u hu t List.mem_cons_self
  cases huname : Context.nameOf? u with
  | none => rfl
  | some other =>
      have hdiffers := hother other huname name hname
      rw [Text.sameName_right (Text.sameName_iff.mp hsame)] at hdiffers
      simp [hdiffers]

/-- What a type in a schema may be built from: predefined and declared types, lists, and nullable forms of types that
have one. -/
def Admits (types : List Ty) : Ty → Prop
  | .nullable t => t.isValueType ∧ t.isNullable = false
  | .grouping _ _ => False
  | .enum e => .enum e ∈ types
  | .cls c => .cls c ∈ types
  | _ => True

/-- A type that can be written in a schema with declared types. -/
def Expressible (types : List Ty) (t : Ty) : Prop := ∀ u ∈ t.parts, Admits types u

/-- The text of a type, with blank space around it and around the types in it. -/
inductive Written (shapes : Shapes) : Ty → List Char → Prop
  | text (t : Ty) : Written shapes t (t.text shapes).toList
  | nullable {t : Ty} {cs : List Char} (h : Written shapes t cs) : Written shapes (.nullable t) (cs ++ ['?'])
  | list {t : Ty} {cs : List Char} (h : Written shapes t cs) :
      Written shapes (.list t) ("List<".toList ++ (cs ++ ['>']))
  | padded {t : Ty} {before cs after : List Char} (hbefore : ∀ c ∈ before, Text.isBlank c)
      (hafter : ∀ c ∈ after, Text.isBlank c) (h : Written shapes t cs) : Written shapes t (before ++ cs ++ after)

/-! ### Reading of names -/

/-- The nullable form of what was read, if it has one. -/
def nullableForm (name : List Char) (t : Ty) : Except SchemaError Ty :=
  if t.isValueType && !t.isNullable then .ok (.nullable t) else .error (.unknownType (String.ofList name))

/-- The type whose name stands by itself. -/
def plainType (types : List Ty) (name : List Char) : Except SchemaError Ty :=
  match Ty.predefined? (String.ofList name) with
  | some (.cls _) => .error (.unknownType (String.ofList name))
  | some t => .ok t
  | none =>
    match declared? types (String.ofList name) with
    | some t => .ok t
    | none => .error (.unknownType (String.ofList name))

/-- One step of the reading: what is left of a name under its mark or between its brackets is read again. -/
theorem typeNamed_eq (types : List Ty) (cs : List Char) :
    typeNamed types cs =
      if (Text.trimChars cs).getLast? = some '?' then
        typeNamed types (Text.trimChars cs).dropLast >>= nullableForm (Text.trimChars cs)
      else
        match listElement? (Text.trimChars cs) with
        | some element => typeNamed types element >>= fun t => .ok (.list t)
        | none => plainType types (Text.trimChars cs) := by
  rw [typeNamed]
  by_cases hmark : (Text.trimChars cs).getLast? = some '?'
  · rw [dif_pos hmark, if_pos hmark]
    rfl
  · rw [dif_neg hmark, if_neg hmark]
    split
    · rename_i element helement
      simp only [helement]
      rfl
    · rename_i hlist
      simp only [hlist]
      unfold plainType
      -- the two searches are compared without being run
      generalize Ty.predefined? _ = predefined
      generalize declared? types _ = declared
      rfl

/-- An induction along the reading: what is read again is shorter. -/
theorem name_induction {P : List Char → Prop}
    (step : ∀ cs, ((Text.trimChars cs).getLast? = some '?' → P (Text.trimChars cs).dropLast) →
      (∀ element, listElement? (Text.trimChars cs) = some element → P element) → P cs) (cs : List Char) : P cs := by
  induction hn : cs.length using Nat.strong_induction_on generalizing cs with
  | _ n ih =>
      have htrim := trimChars_length cs
      refine step cs (fun hmark => ih _ ?_ _ rfl) fun element helement => ih _ ?_ _ rfl
      · have hpos : 0 < (Text.trimChars cs).length :=
          List.length_pos_iff.mpr fun hempty => by simp [hempty] at hmark
        rw [List.length_dropLast]
        omega
      · have hshort := listElement?_length helement
        omega

/-- The reading of a name, call by call and without a bound: what is under a mark or between brackets is read first. A
text has a result if its reading ends. -/
inductive Resolves (types : List Ty) : List Char → Except SchemaError Ty → Prop
  | nullable {cs : List Char} {r : Except SchemaError Ty} (hmark : (Text.trimChars cs).getLast? = some '?')
      (h : Resolves types (Text.trimChars cs).dropLast r) : Resolves types cs (r >>= nullableForm (Text.trimChars cs))
  | list {cs element : List Char} {r : Except SchemaError Ty} (hmark : (Text.trimChars cs).getLast? ≠ some '?')
      (hlist : listElement? (Text.trimChars cs) = some element) (h : Resolves types element r) :
      Resolves types cs (r >>= fun t => .ok (.list t))
  | plain {cs : List Char} (hmark : (Text.trimChars cs).getLast? ≠ some '?')
      (hlist : listElement? (Text.trimChars cs) = none) : Resolves types cs (plainType types (Text.trimChars cs))

/-- The reading ends on every text. -/
theorem resolves_typeNamed (types : List Ty) (cs : List Char) : Resolves types cs (typeNamed types cs) := by
  induction cs using name_induction with
  | step cs hmark hlist =>
      rw [typeNamed_eq]
      split
      · rename_i hlast
        exact .nullable hlast (hmark hlast)
      · rename_i hlast
        cases helement : listElement? (Text.trimChars cs) with
        | some element => exact .list hlast helement (hlist element helement)
        | none => exact .plain hlast helement

/-- The reading has one result. -/
theorem resolves_iff {types : List Ty} {cs : List Char} {r : Except SchemaError Ty} :
    Resolves types cs r ↔ typeNamed types cs = r := by
  refine ⟨fun h => ?_, fun h => h ▸ resolves_typeNamed types cs⟩
  induction h with
  | nullable hmark _ ih => rw [typeNamed_eq, if_pos hmark, ih]
  | list hmark hlist _ ih =>
      rw [typeNamed_eq, if_neg hmark, hlist]
      simp only [ih]
  | plain hmark hlist => rw [typeNamed_eq, if_neg hmark, hlist]

/-! ### Names and their types -/

variable {types : List Ty} {cs : List Char} {t : Ty}

/-- Blank space around a name does not matter. -/
theorem typeNamed_congr {cs ds : List Char} (h : Text.trimChars cs = Text.trimChars ds) :
    typeNamed types cs = typeNamed types ds := by
  rw [typeNamed_eq, typeNamed_eq types ds, h]

theorem typeNamed_nullable (h : typeNamed types cs = .ok t) (hvalue : t.isValueType) (hform : t.isNullable = false) :
    typeNamed types (cs ++ ['?']) = .ok (.nullable t) := by
  have htrim := Text.trimChars_concat cs (c := '?') (by decide)
  rw [typeNamed_eq, htrim, List.getLast?_concat, if_pos rfl, List.dropLast_concat,
    typeNamed_congr (Text.trimChars_dropWhile cs), h]
  show nullableForm _ t = _
  rw [nullableForm, hvalue, hform]
  rfl

theorem typeNamed_list (h : typeNamed types cs = .ok t) :
    typeNamed types ("List<".toList ++ (cs ++ ['>'])) = .ok (.list t) := by
  have htrim : Text.trimChars ("List<".toList ++ (cs ++ ['>'])) = "List<".toList ++ (cs ++ ['>']) := by
    have hfirst : "List<".toList = 'L' :: "ist<".toList := by decide
    rw [← List.append_assoc, Text.trimChars_concat _ (by decide), hfirst, List.cons_append,
      List.dropWhile_cons_of_neg (by decide)]
  have hlast : ("List<".toList ++ (cs ++ ['>'])).getLast? = some '>' := by
    rw [← List.append_assoc, List.getLast?_concat]
  have hbrackets : listElement? ("List<".toList ++ (cs ++ ['>'])) = some cs := by
    have hrest : ("List<".toList ++ (cs ++ ['>'])).drop 5 = cs ++ ['>'] := rfl
    have hfront : "List<".toList.isPrefixOf ("List<".toList ++ (cs ++ ['>'])) :=
      List.isPrefixOf_iff_prefix.mpr (List.prefix_append _ _)
    simp only [listElement?, hrest, hfront, List.getLast?_concat, List.dropLast_concat, decide_true, Bool.and_self,
      if_true]
  rw [typeNamed_eq, htrim, hlast, if_neg (by decide), hbrackets]
  simp only [h]
  rfl

/-- A name has neither a mark nor brackets. -/
theorem typeNamed_plain {name : String} (hname : Lexeme.isName name.toList) :
    typeNamed types name.toList = plainType types name.toList := by
  have hsolid := fun c => Lexeme.mem_isName hname (c := c)
  have hlist : listElement? name.toList = none := by
    refine if_neg fun hbrackets => ?_
    have hfront := List.isPrefixOf_iff_prefix.mp (Bool.and_eq_true_iff.mp hbrackets).1
    exact (hsolid '<' (hfront.subset (by decide))).2.2 rfl
  rw [typeNamed_eq, Text.trimChars_of_solid fun c hc => (hsolid c hc).1, if_neg, hlist]
  exact fun hlast => (hsolid '?' (List.mem_of_getLast? hlast)).2.1 rfl

/-- Declared types with names that can be written. -/
structure Named (types : List Ty) : Prop extends Declared types where
  names : ∀ t ∈ types, ∀ name ∈ Context.nameOf? t, Lexeme.isName name.toList

theorem typeNamed_predefined {name : String} (hname : Lexeme.isName name.toList) (ht : Ty.predefined? name = some t)
    (hcls : ∀ c, t ≠ .cls c) : typeNamed types name.toList = .ok t := by
  rw [typeNamed_plain hname, plainType, String.ofList_toList, ht]
  split
  · rename_i heq
    cases heq
    exact absurd rfl (hcls _)
  · rename_i heq
    cases heq
    rfl
  · rename_i heq
    cases heq

theorem Named.typeNamed_eq (h : Named types) {name : String} (ht : t ∈ types) (hname : Context.nameOf? t = some name) :
    typeNamed types name.toList = .ok t := by
  rw [typeNamed_plain (h.names t ht name hname), plainType, String.ofList_toList, h.free t ht name hname,
    h.declared?_eq ht hname (beq_self_eq_true _)]

/-- A type that is not built from others is read from its name. -/
theorem Named.typeNamed_leaf (h : Named types) (shapes : Shapes) (ht : Admits types t)
    (hnullable : ∀ u, t ≠ .nullable u) (hlist : ∀ u, t ≠ .list u) :
    typeNamed types (t.text shapes).toList = .ok t := by
  cases t with
  | nullable u => exact absurd rfl (hnullable u)
  | list u => exact absurd rfl (hlist u)
  | grouping key element => exact ht.elim
  | enum e => exact h.typeNamed_eq ht rfl
  | cls c =>
      obtain ⟨_, heq⟩ | ⟨id, name, heq⟩ := h.kind _ ht
      · cases heq
      · cases heq
        exact h.typeNamed_eq ht rfl
  | int k =>
      rw [Ty.text]
      cases k <;> exact typeNamed_predefined (by decide) rfl (by simp)
  | _ =>
      rw [Ty.text]
      exact typeNamed_predefined (by decide) rfl (by simp)

/-- A type is read from its text. -/
theorem Named.typeNamed_text (h : Named types) (shapes : Shapes) (t : Ty) (ht : Expressible types t) :
    typeNamed types (t.text shapes).toList = .ok t := by
  induction t using Ty.parts.induct with
  | case1 t ih =>
      obtain ⟨⟨hvalue, hform⟩, ht⟩ := List.forall_mem_cons.mp ht
      rw [Ty.text, String.toList_append]
      exact typeNamed_nullable (ih ht) hvalue hform
  | case2 t ih =>
      obtain ⟨-, ht⟩ := List.forall_mem_cons.mp ht
      rw [Ty.text, String.toList_append, String.toList_append, List.append_assoc]
      exact typeNamed_list (ih ht)
  | case3 key element _ _ => exact (List.forall_mem_cons.mp ht).1.elim
  | case4 t hnullable hlist hgrouping =>
      refine h.typeNamed_leaf shapes (ht t ?_) hnullable hlist
      rw [Ty.parts]
      · exact List.mem_singleton_self t
      all_goals assumption

/-- A type is read from its text with blank space. -/
theorem Named.typeNamed_written (h : Named types) {shapes : Shapes} (hcs : Written shapes t cs)
    (ht : Expressible types t) : typeNamed types cs = .ok t := by
  induction hcs with
  | text t => exact h.typeNamed_text shapes t ht
  | nullable _ ih =>
      obtain ⟨⟨hvalue, hform⟩, ht⟩ := List.forall_mem_cons.mp ht
      exact typeNamed_nullable (ih ht) hvalue hform
  | list _ ih => exact typeNamed_list (ih (List.forall_mem_cons.mp ht).2)
  | padded hbefore hafter _ ih => rw [typeNamed_congr (Text.trimChars_padded hbefore hafter), ih ht]

/-! ### Types that are named -/

theorem expressible_leaf (ht : Admits types t) (hparts : t.parts = [t]) : Expressible types t := by
  rw [Expressible, hparts]
  exact List.forall_mem_singleton.mpr ht

/-- A name by itself is the one of a predefined type without static members, or of a declared type. -/
theorem expressible_plainType (h : Declared types) {name : List Char} (ht : plainType types name = .ok t) :
    Expressible types t := by
  unfold plainType at ht
  split at ht
  · cases ht
  · rename_i t' hcls hpredefined
    cases ht
    unfold Ty.predefined? at hpredefined
    split at hpredefined <;> cases hpredefined <;>
      first | exact expressible_leaf trivial rfl | exact absurd rfl (hcls _)
  · split at ht
    · rename_i t' hdeclared
      cases ht
      have hmem : t ∈ types := List.mem_of_find?_eq_some hdeclared
      rcases h.kind t hmem with ⟨e, rfl⟩ | ⟨id, n, rfl⟩ <;> exact expressible_leaf hmem rfl
    · cases ht

theorem expressible_typeNamed (h : Declared types) (ht : typeNamed types cs = .ok t) : Expressible types t := by
  induction cs using name_induction generalizing t with
  | step cs hmark hlist =>
      rw [typeNamed_eq] at ht
      split at ht
      · rename_i hlast
        obtain ⟨inner, hinner, hform⟩ := Typing.bind_eq_ok.mp ht
        unfold nullableForm at hform
        split at hform <;> cases hform
        rename_i hvalue
        rw [Bool.and_eq_true, Bool.not_eq_true'] at hvalue
        exact List.forall_mem_cons.mpr ⟨hvalue, hmark hlast hinner⟩
      · cases helement : listElement? (Text.trimChars cs) with
        | some element =>
            simp only [helement] at ht
            obtain ⟨inner, hinner, heq⟩ := Typing.bind_eq_ok.mp ht
            cases heq
            exact List.forall_mem_cons.mpr ⟨trivial, hlist element helement hinner⟩
        | none =>
            simp only [helement] at ht
            exact expressible_plainType h ht

/-- The names of types are read back. A type that is built from predefined and declared types by lists and nullable
forms is read from its text, with blank space around it and inside the brackets. Whatever is read from any text is
such a type: its nullable forms are those of value types, each taken once, and none of the types with static members
only is in it. And the reading, call by call, ends on every text, with one result. -/
theorem typeNamed_roundTrip {types : List Ty} (h : Named types) :
    (∀ (shapes : Shapes) (t : Ty) (cs : List Char), Expressible types t → Written shapes t cs →
      typeNamed types cs = .ok t) ∧
    (∀ (cs : List Char) (t : Ty), typeNamed types cs = .ok t →
      Expressible types t ∧ (∀ u, .nullable u ∈ t.parts → u.isValueType ∧ u.isNullable = false) ∧
        .cls .math ∉ t.parts ∧ .cls .convert ∉ t.parts) ∧
    ∀ (cs : List Char) (r : Except SchemaError Ty), Resolves types cs r ↔ typeNamed types cs = r := by
  have hstatic : ∀ {t : Ty} {c : Class}, Expressible types t → .cls c ∈ t.parts → ∃ id name, c = .declared id name := by
    intro t c ht hc
    obtain ⟨_, heq⟩ | ⟨id, name, heq⟩ := h.kind _ (ht _ hc)
    · cases heq
    · cases heq
      exact ⟨id, name, rfl⟩
  refine ⟨fun shapes t cs ht hcs => h.typeNamed_written hcs ht, fun cs t hread => ?_, fun cs r => resolves_iff⟩
  have ht := expressible_typeNamed h.toDeclared hread
  refine ⟨ht, fun u hu => ht _ hu, fun hmath => ?_, fun hconvert => ?_⟩
  · obtain ⟨_, _, heq⟩ := hstatic ht hmath
    cases heq
  · obtain ⟨_, _, heq⟩ := hstatic ht hconvert
    cases heq

/-- Lists of lists of colours that may be absent, with spaces around them. -/
theorem typeNamed_roundTrip_colors :
    let color : EnumType := .ofNames 0 "Color" ["Red"]
    let types : List Ty := [.enum color, .cls (.declared 0 "Order")]
    let colors : Ty := .list (.list (.nullable (.enum color)))
    let cs := " List< List<Color?> > ".toList
    Named types ∧ Expressible types colors ∧ Written .empty colors cs ∧ typeNamed types cs = .ok colors ∧
      ∀ r, Resolves types cs r ↔ r = .ok colors := by
  intro color types colors cs
  have htypes : Named types :=
    { kind := List.forall_mem_cons.mpr ⟨Or.inl ⟨color, rfl⟩, List.forall_mem_singleton.mpr (Or.inr ⟨0, "Order", rfl⟩)⟩
      free := List.forall_mem_cons.mpr ⟨by decide, List.forall_mem_singleton.mpr (by decide)⟩
      distinct := List.pairwise_pair.mpr (by decide)
      names := List.forall_mem_cons.mpr ⟨by decide, List.forall_mem_singleton.mpr (by decide)⟩ }
  have hcolors : Expressible types colors :=
    List.forall_mem_cons.mpr ⟨trivial, List.forall_mem_cons.mpr ⟨trivial, List.forall_mem_cons.mpr
      ⟨⟨rfl, rfl⟩, List.forall_mem_singleton.mpr (List.mem_cons_self : Ty.enum color ∈ types)⟩⟩⟩
  have hspace : ∀ c ∈ [' '], Text.isBlank c := List.forall_mem_singleton.mpr (by decide)
  have hcs : Written .empty colors cs := by
    have htext : cs = [' '] ++ ("List<".toList ++
        (([' '] ++ (Ty.text .empty (.list (.nullable (.enum color)))).toList ++ [' ']) ++ ['>'])) ++ [' '] := by decide
    rw [htext]
    exact .padded hspace hspace (.list (.padded hspace hspace (.text _)))
  obtain ⟨hread, -, hends⟩ := typeNamed_roundTrip htypes
  have hname := hread .empty colors cs hcolors hcs
  exact ⟨htypes, hcolors, hcs, hname, fun r => by rw [hends, hname, eq_comm]⟩

end Schema

end RowQuery
