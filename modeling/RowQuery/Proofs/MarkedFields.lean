import RowQuery.Proofs.ArgumentValues
import RowQuery.Proofs.ObjectLayout
import RowQuery.Proofs.ProjectedFields
import RowQuery.Proofs.RoundTrip
import RowQuery.Proofs.ShapeRequests
import RowQuery.Proofs.TextVariants
import RowQuery.Proofs.TypeNames

/-!
Fields by their marked names. No keyword, operator or predefined type has a mark in front of its name, and of the
symbols of a text only the positions of its arguments have one. So a marked name always means a member of the element,
and if it is the name of a field, that field: every field can be read, whatever else its name stands for. What can
keep it from being read are the arguments alone, if their own names clash.
-/

namespace RowQuery

open Parse Grammar Lexeme

/-! ### Marks -/

namespace Text

/-- A name with a mark in front of it. -/
def IsMarked (text : String) : Prop := text.toList.head? = some '@'

instance (text : String) : Decidable (IsMarked text) := inferInstanceAs (Decidable (_ = _))

variable {text name : String}

theorem isMarked_append (name : String) : IsMarked ("@" ++ name) := by simp [IsMarked]

/-- A mark is the same in small letters. -/
theorem isMarked_fold : IsMarked (fold text) ↔ IsMarked text := by
  rw [IsMarked, IsMarked, fold, String.toList_ofList, List.head?_map]
  cases text.toList.head? with
  | none => simp
  | some c => simp [toLower_eq_iff (d := '@') (by decide)]

theorem IsMarked.fold_ne (h : IsMarked text) {w : String} (hw : ¬ IsMarked w) : fold text ≠ w := by
  rintro rfl
  exact hw (isMarked_fold.mpr h)

theorem IsMarked.predefined?_eq (h : IsMarked text) : Ty.predefined? text = none := by
  unfold Ty.predefined?
  split
  case h_20 => rfl
  all_goals
    rename_i hword
    exact absurd hword (h.fold_ne (by decide))

end Text

/-! ### Names of arguments -/

namespace Symbols

open Text

/-- Named values come after all other arguments, and no two of their names differ in case only. -/
structure Separate (args : List Argument) : Prop where
  last (values : List (String × Value)) : .named values ∉ args.dropLast
  distinct (values : List (String × Value)) (h : .named values ∈ args) : (values.map fun entry => fold entry.1).Nodup

variable {args : List Argument} {entries : List (String × Symbol)} {position : Nat}

theorem isDigit_toString {n : Nat} {c : Char} (h : c ∈ (toString n).toList) : c.isDigit := by
  have hdigits : c ∈ Nat.toDigits 10 n := by rwa [← Nat.toList_repr]
  exact Nat.isDigit_of_mem_toDigits (by decide) (by decide) hdigits

/-- There are no letters in the name of a position. -/
theorem fold_position (n : Nat) : fold ("@" ++ toString n) = "@" ++ toString n := by
  have hlower : ∀ c ∈ ("@" ++ toString n).toList, c.toLower = c := by
    intro c hc
    rw [String.toList_append] at hc
    rcases List.mem_append.mp hc with hmark | hdigit
    · obtain rfl : c = '@' := List.mem_singleton.mp hmark
      rfl
    · by_contra hne
      have hcapital := List.mem_range'_1.mp (mem_capitals hne)
      have hc := isDigit_toString hdigit
      simp only [Char.isDigit, Bool.and_eq_true, decide_eq_true_eq] at hc
      have hle : c.toNat ≤ 57 := UInt32.le_iff_toNat_le.mp hc.2
      omega
  rw [fold, List.map_congr_left hlower, List.map_id', String.ofList_toList]

theorem exists_symbol {arg : Argument} (h : ∀ values, arg ≠ .named values) : ∃ sym, arg.symbols = [sym] := by
  cases arg with
  | named values => exact absurd rfl (h values)
  | value v => exact ⟨_, rfl⟩
  | typed v ty => exact ⟨_, rfl⟩
  | lambda l => exact ⟨_, rfl⟩

/-- Arguments declare names if no named values stand before others. -/
theorem declared_isSome : (declared position args).isSome ↔ ∀ values, .named values ∉ args.dropLast := by
  fun_induction declared position args with
  | case1 => simp
  | case2 => simp
  | case3 position values args hargs =>
      obtain ⟨arg, args, rfl⟩ := List.exists_cons_of_ne_nil hargs
      refine iff_of_false (by simp) fun h => h values ?_
      rw [List.dropLast_cons_cons]
      exact List.mem_cons_self
  | case4 position arg args hlast hnamed ih =>
      rw [Option.isSome_map, ih]
      cases args with
      | nil => simp
      | cons next args =>
          simp only [List.dropLast_cons_cons, List.mem_cons, not_or]
          exact forall_congr' fun values => ⟨fun h => ⟨fun heq => hnamed values heq.symm, h⟩, And.right⟩

/-- The names of arguments are those of positions, and names without a mark. -/
theorem declared_names (h : declared position args = some entries)
    (hargs : ∀ values, .named values ∈ args → ∀ entry ∈ values, ¬ IsMarked entry.1) :
    ∀ entry ∈ entries, (∃ n, position ≤ n ∧ entry.1 = "@" ++ toString n) ∨ ¬ IsMarked entry.1 := by
  fun_induction declared position args generalizing entries with
  | case1 =>
      cases h
      exact List.forall_mem_nil _
  | case2 position values =>
      cases h
      intro entry hentry
      obtain ⟨value, hvalue, rfl⟩ := List.mem_map.mp hentry
      exact Or.inr (hargs values List.mem_cons_self value (List.mem_mergeSort.mp hvalue))
  | case3 => cases h
  | case4 position arg args _ _ ih =>
      obtain ⟨later, hlater, rfl⟩ := Option.map_eq_some_iff.mp h
      refine List.forall_mem_append.mpr ⟨?_, fun entry hentry => ?_⟩
      · intro entry hentry
        obtain ⟨sym, -, rfl⟩ := List.mem_map.mp hentry
        exact Or.inl ⟨position, Nat.le_refl _, rfl⟩
      · have hnames := ih hlater (fun values hvalues => hargs values (List.mem_cons_of_mem _ hvalues)) entry hentry
        rcases hnames with ⟨n, hn, hname⟩ | hplain
        · exact Or.inl ⟨n, Nat.le_of_succ_le hn, hname⟩
        · exact Or.inr hplain

/-- Only named values can clash. -/
theorem nodup_declared (h : declared position args = some entries)
    (hargs : ∀ values, .named values ∈ args → ∀ entry ∈ values, ¬ IsMarked entry.1) :
    ((entries.map folded).map Prod.fst).Nodup ↔
      ∀ values, .named values ∈ args → (values.map fun entry => fold entry.1).Nodup := by
  fun_induction declared position args generalizing entries with
  | case1 =>
      cases h
      simp
  | case2 position values =>
      cases h
      have hperm : (((allValued values).map folded).map Prod.fst).Perm (values.map fun entry => fold entry.1) := by
        rw [allValued, List.map_map, List.map_map]
        exact (List.mergeSort_perm _ _).map _
      rw [hperm.nodup_iff]
      simp
  | case3 => cases h
  | case4 position arg args _ hnamed ih =>
      obtain ⟨later, hlater, rfl⟩ := Option.map_eq_some_iff.mp h
      have hlaterArgs : ∀ values, .named values ∈ args → ∀ entry ∈ values, ¬ IsMarked entry.1 :=
        fun values hvalues => hargs values (List.mem_cons_of_mem _ hvalues)
      obtain ⟨sym, hsym⟩ := exists_symbol hnamed
      have hfree : fold ("@" ++ toString position) ∉ (later.map folded).map Prod.fst := by
        intro hmem
        simp only [List.map_map, List.mem_map, Function.comp_apply, folded] at hmem
        obtain ⟨entry, hentry, hname⟩ := hmem
        rcases declared_names hlater hlaterArgs entry hentry with ⟨n, hn, hposition⟩ | hplain
        · rw [hposition, fold_position, fold_position] at hname
          have heq : n = position := eq_of_toString ((String.append_right_inj _).mp hname)
          omega
        · refine hplain (isMarked_fold.mp ?_)
          rw [hname]
          exact isMarked_fold.mpr (isMarked_append _)
      rw [hsym, List.map_singleton, List.singleton_append, List.map_cons, List.map_cons, List.nodup_cons,
        ih hlater hlaterArgs]
      constructor
      · rintro ⟨-, hdistinct⟩ values hvalues
        rcases List.mem_cons.mp hvalues with heq | hvalues
        · exact absurd heq.symm (hnamed values)
        · exact hdistinct values hvalues
      · exact fun hdistinct => ⟨hfree, fun values hvalues => hdistinct values (List.mem_cons_of_mem _ hvalues)⟩

/-- The names of a text without named parameters are declared if its arguments are separate. -/
theorem ofText_isOk (hargs : ∀ values, .named values ∈ args → ∀ entry ∈ values, ¬ IsMarked entry.1) :
    (∃ symbols, ofText [] args = .ok symbols) ↔ Separate args := by
  simp only [ofText_eq_ok, List.filterMap_nil, List.nil_append]
  constructor
  · rintro ⟨symbols, entries, hentries, hnodup, -⟩
    exact ⟨declared_isSome.mp (Option.isSome_of_mem hentries), (nodup_declared hentries hargs).mp hnodup⟩
  · intro h
    obtain ⟨entries, hentries⟩ := Option.isSome_iff_exists.mp (declared_isSome.mpr h.last)
    exact ⟨_, entries, hentries, (nodup_declared hentries hargs).mpr h.distinct, rfl⟩

/-- A marked name that is not the one of a position stands for nothing. -/
theorem lookup_marked {symbols : Symbols} (h : ofText [] args = .ok symbols)
    (hargs : ∀ values, .named values ∈ args → ∀ entry ∈ values, ¬ IsMarked entry.1) {text : String}
    {c : Char} {cs : List Char} (htext : text.toList = '@' :: c :: cs) (hc : c.isDigit = false) :
    symbols.lookup (fold text) = none := by
  obtain ⟨entries, hentries, -, rfl⟩ := ofText_eq_ok.mp h
  rw [← Option.not_isSome_iff_eq_none, lookup_isSome]
  simp only [List.filterMap_nil, List.nil_append, List.map_map, List.mem_map, Function.comp_apply, folded]
  rintro ⟨entry, hentry, hname⟩
  rcases declared_names hentries hargs entry hentry with ⟨n, -, hposition⟩ | hplain
  · rw [hposition, fold_position] at hname
    have hsecond : c.toLower ∈ (toString n).toList := by
      have hchars : (toString n).toList = c.toLower :: cs.map Char.toLower := by
        simpa [fold, htext] using congrArg (fun t => t.toList.tail) hname
      rw [hchars]
      exact List.mem_cons_self
    have hdigit := isDigit_toString hsecond
    rw [caseless_isDigit c, hc] at hdigit
    cases hdigit
  · refine hplain (isMarked_fold.mp ?_)
    rw [hname]
    exact isMarked_fold.mpr (by simp [IsMarked, htext])

end Symbols

/-! ### Fields -/

namespace Catalog

variable {cat : Catalog} {c : Class}

/-- Instances of a class have no other properties than their fields. -/
def OnlyFields (cat : Catalog) (c : Class) : Prop :=
  ∀ a ∈ cat.lineage c, ∀ p ∈ (cat.members a).properties, p.isStatic = false → p ∈ cat.fieldProperties a

/-- Each field is an own field of the class or of one that it extends. -/
theorem exists_fieldProperty {f : String × Ty} (hf : f ∈ cat.fields c) :
    ∃ a ∈ cat.lineage c, ∃ p ∈ cat.fieldProperties a, (p.name, p.ty) = f := by
  rw [fields, List.mem_flatten] at hf
  obtain ⟨own, hown, hf⟩ := hf
  obtain ⟨a, ha, rfl⟩ := List.mem_map.mp hown
  rw [← cat.fieldProperties_fields a] at hf
  exact ⟨a, List.mem_reverse.mp ha, List.mem_map.mp hf⟩

/-- A field is found by its name, in any case, if no other field has it. -/
theorem property?_field (hcat : Layered cat.decls) (honly : cat.OnlyFields c)
    (hdistinct : ((cat.fields c).map fun f => Text.fold f.1).Nodup) {k : Nat} {f : String × Ty}
    (hf : (cat.fields c)[k]? = some f) {name : String} (hname : Text.fold name = Text.fold f.1) :
    cat.property? (.cls c) name false = some ⟨f.1, f.2, false, .field k⟩ := by
  have hsome : (cat.property? (.cls c) name false).isSome := by
    obtain ⟨a, ha, p, hp, rfl⟩ := exists_fieldProperty (List.mem_of_getElem? hf)
    obtain ⟨others, hothers⟩ := cat.members_properties a
    refine List.findSome?_isSome_iff.mpr ⟨cat.members a, List.mem_append_left _ (List.mem_map_of_mem ha), ?_⟩
    rw [Members.property?, List.find?_isSome]
    refine ⟨p, by rw [hothers]; exact List.mem_append_left _ hp, ?_⟩
    rw [(mem_fieldProperties hp).1, Text.sameName_iff.mpr hname.symm]
    rfl
  -- what is found is the property of a field, and only one field has the name
  obtain ⟨p, hp⟩ := Option.isSome_iff_exists.mp hsome
  obtain ⟨level, hlevel, hfound⟩ := List.exists_of_findSome?_eq_some hp
  have hmem : p ∈ level.properties := List.mem_of_find?_eq_some hfound
  have hmatch := List.find?_some hfound
  simp only [Bool.and_eq_true, beq_iff_eq] at hmatch
  obtain ⟨hinstance, hsame⟩ := hmatch
  rcases List.mem_append.mp hlevel with hdeclared | hshared
  · obtain ⟨a, ha, rfl⟩ := List.mem_map.mp hdeclared
    obtain ⟨-, i, hgetter, hi⟩ := mem_fieldProperties (honly a ha p hmem hinstance)
    have hi : (cat.fields c)[i]? = some (p.name, p.ty) :=
      getElem?_fields_of_chain hcat ((isSubclass_iff_chain hcat).mp (isSubclass_iff.mpr ha)) hi
    have hfold : ((cat.fields c).map fun f => Text.fold f.1)[i]? = ((cat.fields c).map fun f => Text.fold f.1)[k]? := by
      rw [List.getElem?_map, List.getElem?_map, hi, hf]
      exact congrArg some ((Text.sameName_iff.mp hsame).trans hname)
    have hlt : i < ((cat.fields c).map fun f => Text.fold f.1).length := by
      rw [List.length_map]
      exact (List.getElem?_eq_some_iff.mp hi).1
    obtain rfl : i = k := (List.getElem?_inj hlt hdistinct).mp hfold
    obtain rfl : (p.name, p.ty) = f := Option.some.inj (hi.symm.trans hf)
    rw [hp]
    obtain ⟨pname, pty, pstatic, pgetter⟩ := p
    cases hinstance
    cases hgetter
    rfl
  · rw [List.mem_singleton.mp hshared] at hmem
    cases hmem

end Catalog

/-! ### Texts -/

/-- The characters of a name in another case are those of a name. -/
theorem Lexeme.isName_respelled {name name' : String} (h : Text.fold name' = Text.fold name)
    (hname : isName name.toList) : isName name'.toList := by
  have hlower : ∀ cs, isName (cs.map Char.toLower) = isName cs := by
    intro cs
    cases cs with
    | nil => rfl
    | cons c cs =>
        simp only [isName, List.map_cons, List.all_map, Text.caseless_startsName c]
        exact congrArg _ (congrArg _ (funext Text.caseless_continuesName))
  rw [← hlower, Text.fold_eq_iff.mp h, hlower]
  exact hname

namespace Grammar

variable {scope : Scope} {inner : Level} {m : Nat × Shapes} {text : String} {it e : Expr}

/-- A marked name that is declared nowhere is that of a member of the element. -/
theorem takes_marked (hmark : Text.IsMarked text) (hcontext : scope.context.lookup? text = none)
    (hsymbols : scope.symbols.lookup (Text.fold text) = none) (hit : scope.it = some it)
    (h : Typing.property scope.catalog (.value it) (unmarked text) = .ok e) :
    Takes (word inner text) scope m [⟨.identifier, text⟩] e m [] := by
  have hnamed : Takes (named inner text) scope m [⟨.identifier, text⟩] e m [] := by
    refine Takes.seen ?_
    rw [hmark.predefined?_eq, Option.none_or, hcontext]
    simp only [hsymbols, hit]
    exact takes_property (by decide) h
  unfold word
  split
  case h_7 => exact hnamed
  all_goals
    rename_i hword
    exact absurd hword (hmark.fold_ne (by decide))

end Grammar

namespace Environment

variable {env : Environment} {c : Class} {args : List Argument}

theorem lookup?_marked {ctx : Context} (h : ∀ entry ∈ ctx.named, ¬ Text.IsMarked entry.1) {text : String}
    (hmark : Text.IsMarked text) : ctx.lookup? text = none := by
  refine List.lookup_eq_none_iff.mpr fun entry hentry => ?_
  simpa using hmark.fold_ne (h entry hentry)

/-- A marked name reads the property of that name, if it is not the position of an argument. -/
theorem compiles_marked (hcontext : ∀ entry ∈ env.context.named, ¬ Text.IsMarked entry.1)
    (hargs : ∀ values, .named values ∈ args → ∀ entry ∈ values, ¬ Text.IsMarked entry.1)
    {symbols : Symbols} (hsymbols : Symbols.ofText [] args = .ok symbols) {ty : Ty} {p : Property} {name : String}
    (hname : isName name.toList) (hplain : ¬ Text.IsMarked name) (hp : env.catalog.property? ty name false = some p) :
    env.Compiles [⟨none, ty⟩] none ("@" ++ name) args (.ofProperty ty p) := by
  obtain ⟨d, ds, hds⟩ : ∃ d ds, name.toList = d :: ds :=
    List.exists_cons_of_ne_nil (by rintro hnil; simp [hnil, isName] at hname)
  have htext : ("@" ++ name).toList = '@' :: d :: ds := by rw [String.toList_append, hds]; rfl
  rw [hds, isName, Bool.and_eq_true, List.all_eq_true] at hname
  obtain ⟨hstart, hrest⟩ := hname
  have hletter : Text.isLetter d ∨ d = '_' := by
    have hd : d ≠ '@' := by
      rintro rfl
      exact hplain (by rw [Text.IsMarked, hds]; rfl)
    simpa [startsName, hd] using hstart
  have hcontinue : continuesName d := by
    rcases hletter with h | rfl
    · simp [continuesName, Text.isLetterOrNumeral, h]
    · decide
  have hdigit : d.isDigit = false := Bool.eq_false_iff.mpr fun h => by simp [startsName_digit h] at hstart
  have hmark := Text.isMarked_append name
  have hunmarked : unmarked ("@" ++ name) = name := by rw [unmarked_of_mark htext, ← hds, String.ofList_toList]
  have htyped : Typing.property env.catalog (.value (.param ty 0)) (unmarked ("@" ++ name)) =
      .ok (.property p.ty p (some (.param ty 0))) := by
    have hp : env.catalog.property? (Typing.Receiver.value (.param ty 0)).ty name false = some p := hp
    rw [Typing.property, hunmarked, show (Typing.Receiver.value (.param ty 0)).isStatic = false from rfl, hp]
    rfl
  have hword : Takes (word (level (maxDepth - 1)) ("@" ++ name)) (env.scope (bindParams [⟨none, ty⟩]) symbols)
      (1, .empty) [⟨.identifier, "@" ++ name⟩] _ (1, .empty) [] :=
    takes_marked hmark (lookup?_marked hcontext hmark) (Symbols.lookup_marked hsymbols hargs htext hdigit) rfl htyped
  have hunary := takes_name (level_derived (maxDepth - 1)) (hmark.fold_ne (by decide)) hword (.nil 6)
  have hwhole : Lexeme.Whole ⟨.identifier, "@" ++ name⟩ :=
    .of_name htext (by decide) (List.forall_mem_cons.mpr ⟨hcontinue, hrest⟩)
  exact compiles_of_takes hsymbols (Scans.single hwhole)
    (takes_descend (level_derived (maxDepth - 1)) (j := 0) (k := 6) hunary (by decide) (.nil 0)) (by simp)

/-- Every field of the element can be read by its marked name. For a class with no instance properties but its fields,
where the fields have names that start with a letter or an underscore and differ not in case only, for types without a
mark in their names, and for arguments without a mark in the names of their values: if the arguments are separate, the
name of a field in any case, after a mark, compiles to the property that reads the position of the field. If they are
not, no text compiles with them. -/
theorem compileProjection_marked (hcat : Catalog.Layered env.catalog.decls) (honly : env.catalog.OnlyFields c)
    (hnames : ∀ f ∈ env.catalog.fields c, isName f.1.toList ∧ ¬ Text.IsMarked f.1)
    (hdistinct : ((env.catalog.fields c).map fun f => Text.fold f.1).Nodup)
    (hcontext : ∀ entry ∈ env.context.named, ¬ Text.IsMarked entry.1)
    (hargs : ∀ values, .named values ∈ args → ∀ entry ∈ values, ¬ Text.IsMarked entry.1)
    {k : Nat} {f : String × Ty} (hf : (env.catalog.fields c)[k]? = some f)
    {name : String} (hname : Text.sameName name f.1) (shapes : Shapes) :
    (Symbols.Separate args → ((env.compileProjection (.cls c) ("@" ++ name) args).exec shapes).1 =
      .ok (.ofProperty (.cls c) ⟨f.1, f.2, false, .field k⟩)) ∧
    (¬ Symbols.Separate args → ∃ fault, ((env.compileProjection (.cls c) ("@" ++ name) args).exec shapes).1 =
      .error ⟨fault, 0⟩) := by
  have hfold := Text.sameName_iff.mp hname
  obtain ⟨hplace, hplain⟩ := hnames f (List.mem_of_getElem? hf)
  constructor
  · intro hseparate
    obtain ⟨symbols, hsymbols⟩ := (Symbols.ofText_isOk hargs).mpr hseparate
    have hmark : ¬ Text.IsMarked name := by rwa [← Text.isMarked_fold, hfold, Text.isMarked_fold]
    exact (compiles_marked hcontext hargs hsymbols (isName_respelled hfold hplace) hmark
      (Catalog.property?_field hcat honly hdistinct hf hfold)).compile_eq_ok shapes
  · intro hseparate
    cases hsymbols : Symbols.ofText (bindParams [⟨none, .cls c⟩]) args with
    | ok symbols => exact absurd ((Symbols.ofText_isOk hargs).mp ⟨symbols, hsymbols⟩) hseparate
    | error fault => exact ⟨fault, congrArg Prod.fst (compile_of_symbols hsymbols)⟩

/-- Entries, and words that are entries: all their fields have names that mean something else. -/
def lexicon : Environment where
  catalog := ⟨[⟨"Word", some (.declared 0 "Entry"), [("new", .int32), ("Limit", .string)], [], [], [], [], none⟩,
    ⟨"Entry", none, [("It", .int32), ("Entry", .boolean)], [], [], [], [], none⟩]⟩
  context := ⟨[("entry", .cls (.declared 0 "Entry")), ("word", .cls (.declared 1 "Word"))]⟩

theorem lexicon_layered : Catalog.Layered lexicon.catalog.decls := ⟨by rintro id name ⟨⟩; decide, by simp, trivial⟩

theorem lexicon_onlyFields : lexicon.catalog.OnlyFields (.declared 1 "Word") := by
  have hall : ∀ a ∈ [Class.declared 1 "Word", .declared 0 "Entry"], ∀ p ∈ (lexicon.catalog.members a).properties,
      p.isStatic = false → p ∈ lexicon.catalog.fieldProperties a :=
    List.forall_mem_cons.mpr ⟨fun p hp _ => hp, List.forall_mem_singleton.mpr fun p hp _ => hp⟩
  exact hall

/-- The field that a word inherits under the name of a class, and its own one under the name of a value. -/
theorem compileProjection_marked_lexicon :
    let args : List Argument := [.value (.int32 1), .named [("limit", .int32 2)]]
    ∀ shapes,
      ((lexicon.compileProjection (.cls (.declared 1 "Word")) "@ENTRY" args).exec shapes).1 =
        .ok (.ofProperty (.cls (.declared 1 "Word")) ⟨"Entry", .boolean, false, .field 1⟩) ∧
      ((lexicon.compileProjection (.cls (.declared 1 "Word")) "@limit" args).exec shapes).1 =
        .ok (.ofProperty (.cls (.declared 1 "Word")) ⟨"Limit", .string, false, .field 3⟩) := by
  intro args shapes
  have hnames : ∀ f ∈ lexicon.catalog.fields (.declared 1 "Word"), isName f.1.toList ∧ ¬ Text.IsMarked f.1 := by decide
  have hvalues : ∀ values, .named values ∈ args → values = [("limit", .int32 2)] := by simp [args]
  have hargs : ∀ values, .named values ∈ args → ∀ entry ∈ values, ¬ Text.IsMarked entry.1 := by
    intro values h
    rw [hvalues values h]
    exact List.forall_mem_singleton.mpr (by decide)
  have hseparate : Symbols.Separate args := by
    refine ⟨by simp [args], fun values h => ?_⟩
    rw [hvalues values h]
    decide
  have hentry : Text.sameName "ENTRY" "Entry" := by decide
  have hlimit : Text.sameName "limit" "Limit" := by decide
  exact ⟨(compileProjection_marked (k := 1) lexicon_layered lexicon_onlyFields hnames (by decide) (by decide) hargs rfl
      hentry shapes).1 hseparate,
    (compileProjection_marked (k := 3) lexicon_layered lexicon_onlyFields hnames (by decide) (by decide) hargs rfl
      hlimit shapes).1 hseparate⟩

/-- Two values whose names differ in case only keep every field from being read. -/
theorem compileProjection_marked_clash :
    let args : List Argument := [.named [("A", .int32 2), ("a", .int32 1)]]
    lexicon.catalog.OnlyFields (.declared 1 "Word") ∧
      (∀ f ∈ lexicon.catalog.fields (.declared 1 "Word"), isName f.1.toList ∧ ¬ Text.IsMarked f.1) ∧
      ((lexicon.catalog.fields (.declared 1 "Word")).map fun f => Text.fold f.1).Nodup ∧
      (lexicon.catalog.fields (.declared 1 "Word"))[0]? = some ("It", .int32) ∧
      (∀ entry ∈ lexicon.context.named, ¬ Text.IsMarked entry.1) ∧
      (∀ values, .named values ∈ args → ∀ entry ∈ values, ¬ Text.IsMarked entry.1) ∧
      ∀ shapes, ((lexicon.compileProjection (.cls (.declared 1 "Word")) "@It" args).exec shapes).1 =
        .error ⟨.duplicateIdentifier "a", 0⟩ := by
  intro args
  refine ⟨lexicon_onlyFields, by decide, by decide, rfl, by decide, ?_, fun shapes => ?_⟩
  · intro values h
    obtain rfl : values = [("A", .int32 2), ("a", .int32 1)] := by simpa [args] using h
    exact List.forall_mem_cons.mpr ⟨by decide, List.forall_mem_singleton.mpr (by decide)⟩
  · have hsorted : ([("A", .int32 2), ("a", .int32 1)] : List (String × Value)).mergeSort (fun a b => a.1 ≤ b.1) =
        [("A", .int32 2), ("a", .int32 1)] := List.mergeSort_of_pairwise (List.pairwise_pair.mpr (by decide))
    have hsymbols : Symbols.ofText (bindParams [⟨none, .cls (.declared 1 "Word")⟩]) args =
        .error (.duplicateIdentifier "a") := by
      show Symbols.insertValues [] [("A", .int32 2), ("a", .int32 1)] = _
      rw [Symbols.insertValues, hsorted]
      rfl
    exact congrArg Prod.fst (compile_of_symbols hsymbols)

end Environment

end RowQuery
