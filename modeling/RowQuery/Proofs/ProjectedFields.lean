import RowQuery.Proofs.MemberPhrases
import RowQuery.Proofs.QuerySteps
import RowQuery.Proofs.Soundness

/-!
Objects of a new shape and their fields. A text that makes an object of a new shape from texts that compile by
themselves evaluates each of them as if it stood alone. Its fields are read back by their names: fields may not
have the very same name, but a name is looked for in any case, so of the fields whose names differ in case only
the first one is found.
-/

namespace RowQuery

open Parse Grammar Lexeme

/-! ### The text -/

/-- An object of a new shape, from the texts and the names of its fields. -/
def Query.projected (fields : List (String × String)) : String :=
  "new (" ++ String.intercalate ", " (fields.map fun f => f.1 ++ " as " ++ f.2) ++ ")"

def Lexeme.newWord : Lexeme := ⟨.identifier, "new"⟩
def Lexeme.asWord : Lexeme := ⟨.identifier, "as"⟩

/-- A field as it is written and read: the text of its value with its lexemes, its name, and what the text
compiles to. -/
structure Grammar.FieldPart where
  text : String
  name : String
  lexemes : List Lexeme
  value : Lambda

namespace Grammar.FieldPart

/-- The text and the name of a field. -/
def written (part : FieldPart) : String × String := (part.text, part.name)

/-- The name of a field, without a mark, and its type. -/
def typed (part : FieldPart) : String × Ty := (unmarked part.name, part.value.resultType)

/-- All lexemes of a field. -/
def all (part : FieldPart) : List Lexeme := part.lexemes ++ [asWord, ⟨.identifier, part.name⟩]

/-- The lexemes of fields after another one. -/
def later (parts : List FieldPart) : List Lexeme := parts.flatMap fun part => comma :: part.all

/-- A field whose text compiles by itself, for elements of a type. -/
structure Compiled (env : Environment) (element : Ty) (args : List Argument) (symbols : Symbols)
    (part : FieldPart) : Prop where
  compiles : env.Compiles [⟨none, element⟩] none part.text args part.value
  whole : Lexeme.Whole ⟨.identifier, part.name⟩
  scans : Scans part.text.toList part.lexemes
  takes : ∀ (shift : Nat) (made : Shapes) (rest : List Lexeme), Closes rest → Stops 0 rest →
    ∃ m, Takes expression (env.scope (Environment.bindParams [⟨none, element⟩]) symbols) (1 + shift, made)
      part.lexemes (part.value.body.mapSlots (raise 1 shift)) m rest

end Grammar.FieldPart

open FieldPart (later)

theorem Scans.field {part : FieldPart} (h : Scans part.text.toList part.lexemes)
    (hname : Lexeme.Whole ⟨.identifier, part.name⟩) :
    Scans (part.text ++ " as " ++ part.name).toList part.all := by
  have hlast := (Scans.single hname).after_blank (c := ' ') (by decide)
  have has := hlast.cons (l := asWord) ⟨_, _, rfl, by decide, rfl⟩ (by rintro _ ⟨⟩; decide)
  have hall := h.append (has.after_blank (c := ' ') (by decide)) fun l _ =>
    (divides_blank (c := ' ') (by decide)).ends l.kind _
  simpa [asWord, FieldPart.all] using hall

theorem Scans.fields {part : FieldPart} {parts : List FieldPart}
    (h : ∀ p ∈ part :: parts, Scans (p.text ++ " as " ++ p.name).toList p.all) :
    Scans (String.intercalate ", " ((part :: parts).map fun p => p.text ++ " as " ++ p.name)).toList
      (part.all ++ later parts) := by
  obtain ⟨hpart, hparts⟩ := List.forall_mem_cons.mp h
  induction parts generalizing part with
  | nil =>
      rw [List.map_cons, List.map_nil, String.intercalate_singleton, later, List.flatMap_nil, List.append_nil]
      exact hpart
  | cons next parts ih =>
      obtain ⟨hnext, hlater⟩ := List.forall_mem_cons.mp hparts
      rw [List.map_cons, List.map_cons, String.intercalate_cons_cons]
      exact hpart.listed (ih hparts hnext hlater)

theorem Scans.projected {part : FieldPart} {parts : List FieldPart}
    (h : ∀ p ∈ part :: parts, Scans (p.text ++ " as " ++ p.name).toList p.all) :
    Scans (Query.projected ((part :: parts).map FieldPart.written)).toList
      (newWord :: openParen :: (part.all ++ (later parts ++ [closeParen]))) := by
  have hclose := (Scans.fields h).append (.single (l := closeParen) ⟨_, _, rfl, by decide, rfl⟩)
    fun l _ => divides_closeParen.ends l.kind []
  have hopen := hclose.cons (l := openParen) ⟨_, _, rfl, by decide, rfl⟩ fun _ _ => rfl
  have hall := (hopen.after_blank (c := ' ') (by decide)).cons (l := newWord) ⟨_, _, rfl, by decide, rfl⟩
    (by rintro _ ⟨⟩; decide)
  simpa [Query.projected, newWord, openParen, closeParen, FieldPart.written, Function.comp_def] using hall

/-! ### Compilation -/

namespace Environment

variable {env : Environment} {element : Ty} {args : List Argument} {symbols : Symbols}

/-- A text that compiles is the value of a field. -/
theorem Compiles.part {text name : String} {l : Lambda} (h : env.Compiles [⟨none, element⟩] none text args l)
    (hsymbols : Symbols.ofText (bindParams [⟨none, element⟩]) args = .ok symbols)
    (hname : Lexeme.Whole ⟨.identifier, name⟩) :
    ∃ part : FieldPart, part.written = (text, name) ∧ part.Compiled env element args symbols := by
  obtain ⟨made, hwithin⟩ := h.within
  obtain ⟨hparams, body, htext, hresult⟩ := Environment.compileWithin_eq_ok.mp hwithin
  cases hresult
  rw [hparams] at htext
  have htext : env.ReadsText (bindParams [⟨none, element⟩]) args text (Reads (reader (level (maxDepth - 1)) 0))
      made l.body l.slots := htext
  obtain ⟨symbols', ls, grow, hsymbols', hscans, htakes⟩ := htext.takes (Nat.le_refl _) (bindParams_slots _)
  obtain rfl : symbols = symbols' := Except.ok.inj (hsymbols.symm.trans hsymbols')
  exact ⟨⟨text, name, ls, l⟩, rfl, h, hname, hscans, fun shift made rest hrest hstops =>
    ⟨_, htakes shift made rest hrest hstops⟩⟩

end Environment

namespace Grammar

variable {scope : Scope} {s s' : Reading} {rest : List Lexeme}

theorem closes_asWord : Closes (asWord :: rest) := .of_word rfl

theorem stops_asWord (k : Nat) : Stops k (asWord :: rest) := by
  refine .of_word rfl ?_
  decide

/-- The name of a field that follows its value. -/
theorem takes_fieldName {m : Nat × Shapes} {name : String} (pos : Nat) (e : Expr) :
    Takes (fieldName pos e) scope m [asWord, ⟨.identifier, name⟩] (unmarked name) m rest := by
  refine Takes.look fun t ht => ?_
  have hlexeme : t.lexeme = asWord := ht
  have hword : t.isWord "as" := by
    rw [Token.isWord, show t.kind = .identifier from congrArg Lexeme.kind hlexeme,
      show t.text = "as" from congrArg Lexeme.text hlexeme]
    decide
  rw [if_pos hword]
  exact Takes.skip (Takes.identified (Takes.skip (takes_pure _)))

/-- What is read for a field: its name, and its value in other slots. -/
def FieldPart.ReadAs (part : FieldPart) (named : String × Expr) : Prop :=
  named.1 = unmarked part.name ∧ ∃ shift, named.2 = part.value.body.mapSlots (raise 1 shift)

theorem FieldPart.typed_eq {parts : List FieldPart} {named : List (String × Expr)}
    (h : List.Forall₂ FieldPart.ReadAs parts named) :
    named.map (fun f => (f.1, f.2.ty)) = parts.map FieldPart.typed := by
  induction h with
  | nil => rfl
  | cons hread _ ih =>
      obtain ⟨hname, shift, hvalue⟩ := hread
      rw [List.map_cons, List.map_cons, ih, FieldPart.typed, hname, hvalue, Expr.ty_substitute]
      rfl

section

variable {env : Environment} {element : Ty} {args : List Argument} {symbols : Symbols} {done : List (String × Expr)}

theorem FieldPart.Compiled.reads_field {part : FieldPart} {named : String × Expr}
    (h : part.Compiled env element args symbols)
    (hread : Reads (field (level maxDepth) done) (env.scope (Environment.bindParams [⟨none, element⟩]) symbols)
      s named s')
    (hs : s.Ahead (part.all ++ rest)) (hslots : 1 ≤ s.slots) :
    part.ReadAs named ∧ s'.Ahead rest ∧ 1 ≤ s'.slots := by
  have hle : s.slots ≤ s'.slots := (field_reads (level_derived maxDepth) hread).1.le
  simp only [field, reads_bind, reads_token] at hread
  obtain ⟨_, _, ⟨rfl, rfl⟩, e, u, he, name, v, hname, hread⟩ := hread
  have hs : s.Ahead (part.lexemes ++ (asWord :: ⟨.identifier, part.name⟩ :: rest)) := by
    simpa [FieldPart.all] using hs
  have hmade : s.made = (1 + (s.slots - 1), s.shapes) := Prod.ext (by show s.slots = _; omega) rfl
  obtain ⟨m, htakes⟩ := h.takes (s.slots - 1) s.shapes _ closes_asWord (stops_asWord 0)
  obtain ⟨rfl, hu, -⟩ := htakes.reads hs hmade he
  obtain ⟨rfl, hv, -⟩ := (takes_fieldName _ _).reads hu rfl hname
  rcases reads_ite.mp hread with ⟨_, htaken⟩ | ⟨_, hfree⟩
  · obtain ⟨_, _, hthrow, _⟩ := reads_bind.mp htaken
    exact absurd hthrow reads_throw
  · obtain ⟨rfl, rfl⟩ := reads_pure.mp hfree
    exact ⟨⟨rfl, _, rfl⟩, hv, Nat.le_trans hslots hle⟩

/-- Fields after others are read one after the other, up to the closing bracket. -/
theorem FieldPart.reads_later {parts : List FieldPart} {all : List (String × Expr)}
    (hparts : ∀ part ∈ parts, part.Compiled env element args symbols)
    (hread : Iterates (nextItem (field (level maxDepth)))
      (env.scope (Environment.bindParams [⟨none, element⟩]) symbols) done s all s')
    (hs : s.Ahead (later parts ++ closeParen :: rest)) (hslots : 1 ≤ s.slots) :
    ∃ named, all = done ++ named ∧ List.Forall₂ FieldPart.ReadAs parts named ∧
      s'.Ahead (closeParen :: rest) := by
  induction parts generalizing done s with
  | nil =>
      have hkind : s.token.kind = .closeParen := kind_of_shows hs.shows
      have hends : s.token.kind ≠ .comma := by
        rw [hkind]
        decide
      cases hread with
      | stop hnone =>
          rcases reads_nextItem.mp hnone with ⟨hcomma, _⟩ | ⟨_, _, rfl⟩
          · exact absurd hcomma hends
          · exact ⟨[], (List.append_nil _).symm, .nil, hs⟩
      | next hsome _ =>
          rcases reads_nextItem.mp hsome with ⟨hcomma, _⟩ | ⟨_, hnone, _⟩
          · exact absurd hcomma hends
          · cases hnone
  | cons part parts ih =>
      obtain ⟨hpart, hparts⟩ := List.forall_mem_cons.mp hparts
      have hs : s.Ahead (comma :: (part.all ++ (later parts ++ closeParen :: rest))) := by
        simpa [later] using hs
      have hkind : s.token.kind = .comma := kind_of_shows hs.shows
      cases hread with
      | stop hnone =>
          rcases reads_nextItem.mp hnone with ⟨_, _, _, _, _, hsome⟩ | ⟨hcomma, _⟩
          · cases hsome
          · exact absurd hkind hcomma
      | next hsome hlater =>
          rcases reads_nextItem.mp hsome with ⟨_, u, named, hu, hnamed, heq⟩ | ⟨_, hnone, _⟩
          · cases heq
            obtain ⟨-, hahead, hmade⟩ := takes_advance.reads hs rfl hu
            have huslots : u.slots = s.slots := congrArg Prod.fst hmade
            obtain ⟨hread, hv, hvslots⟩ := hpart.reads_field hnamed hahead (by omega)
            obtain ⟨others, rfl, hothers, hs'⟩ := ih hparts hlater hv hvslots
            exact ⟨named :: others, List.append_assoc _ _ _, .cons hread hothers, hs'⟩
          · cases hnone

/-- An object of a new shape is read field by field. -/
theorem FieldPart.reads_projection {part : FieldPart} {parts : List FieldPart} {e : Expr}
    (hparts : ∀ p ∈ part :: parts, p.Compiled env element args symbols)
    (hread : Reads (projection (level maxDepth)) (env.scope (Environment.bindParams [⟨none, element⟩]) symbols)
      s e s')
    (hs : s.Ahead (newWord :: openParen :: (part.all ++ (later parts ++ closeParen :: rest))))
    (hslots : 1 ≤ s.slots) :
    ∃ named, e = Typing.projection named ∧ List.Forall₂ FieldPart.ReadAs (part :: parts) named ∧
      s'.Ahead rest := by
  obtain ⟨hpart, hparts⟩ := List.forall_mem_cons.mp hparts
  simp only [projection, reads_bind, reads_modify, reads_pure] at hread
  obtain ⟨_, t, ht, _, u, hu, fields, v, hfields, _, w, hw, _, _, rfl, rfl, rfl⟩ := hread
  obtain ⟨-, haheadt, hmadet⟩ := takes_advance.reads hs rfl ht
  obtain ⟨-, hu⟩ := reads_expect.mp hu
  obtain ⟨-, haheadu, hmadeu⟩ := takes_advance.reads haheadt rfl hu
  have huslots : u.slots = s.slots := congrArg Prod.fst (hmadeu.trans hmadet)
  obtain ⟨named, x, hnamed, hlater⟩ :=
    (reads_separated fun h => (field_reads (level_derived maxDepth) h).2).mp hfields
  obtain ⟨hfirst, haheadx, hxslots⟩ := hpart.reads_field hnamed haheadu (by omega)
  obtain ⟨others, rfl, hothers, haheadv⟩ := FieldPart.reads_later hparts hlater haheadx hxslots
  obtain ⟨-, hw⟩ := reads_expect.mp hw
  obtain ⟨-, haheadw, -⟩ := takes_advance.reads haheadv rfl hw
  exact ⟨named :: others, rfl, .cons hfirst hothers, haheadw.shows, haheadw.rest, haheadw.finished⟩

end

end Grammar

/-- The text of an object compiles to the values of its fields, each in slots of its own. -/
theorem Environment.Compiles.projected {env : Environment} {element : Ty} {args : List Argument}
    {symbols : Symbols} {parts : List FieldPart} {l : Lambda}
    (hsymbols : Symbols.ofText (bindParams [⟨none, element⟩]) args = .ok symbols) (hne : parts ≠ [])
    (hparts : ∀ p ∈ parts, p.Compiled env element args symbols)
    (h : env.Compiles [⟨none, element⟩] none (Query.projected (parts.map FieldPart.written)) args l) :
    l.params = bindParams [⟨none, element⟩] ∧
      ∃ named, l.body = Typing.projection named ∧ List.Forall₂ FieldPart.ReadAs parts named := by
  obtain ⟨part, parts, rfl⟩ := List.exists_cons_of_ne_nil hne
  have hscans := Scans.projected fun p hp => (hparts p hp).scans.field (hparts p hp).whole
  -- With room for one more level of nesting, the fields may be as deep as texts by themselves.
  obtain ⟨made, h⟩ := h.within.mono (Nat.le_succ maxDepth)
  obtain ⟨hparams, body, htext, hresult⟩ := Environment.compileWithin_eq_ok.mp h
  cases hresult
  obtain ⟨symbols', hsymbols', s, s', hadvance, hread, -, -⟩ := htext
  rw [hparams] at hsymbols' hadvance hread
  obtain rfl : symbols = symbols' := Except.ok.inj (hsymbols.symm.trans hsymbols')
  obtain ⟨t, ht, hahead, hmade⟩ := hscans.begins (env.scope (bindParams [⟨none, element⟩]) symbols) _ made
  obtain rfl : s = t := congrArg Prod.snd (hadvance.symm.trans ht)
  have hlexeme : s.token.lexeme = newWord := hahead.shows
  have hkind : s.token.kind = .identifier := congrArg Lexeme.kind hlexeme
  have htoken : s.token.text = "new" := congrArg Lexeme.text hlexeme
  have hop : unaryOperator? s.token = none := by
    have hword : s.token.isWord "not" = false := by
      rw [Token.isWord, hkind, htoken]
      decide
    simp [unaryOperator?, hkind, hword]
  obtain ⟨a, u, hstart, hend⟩ := reads_primaryStart_of_reader (level_derived maxDepth) 0 hread hop
  obtain ⟨_, _, htok, hstart⟩ := reads_bind.mp hstart
  obtain ⟨rfl, rfl⟩ := reads_token.mp htok
  have hfold : Text.fold "new" = "new" := by decide
  simp only [hkind, htoken, word, hfold] at hstart
  have hslots : s.slots = 1 := congrArg Prod.fst hmade
  obtain ⟨named, rfl, hnamed, hu⟩ := FieldPart.reads_projection hparts hstart hahead (Nat.le_of_eq hslots.symm)
  exact ⟨hparams, named, (hend [] hu (.nil 0)).1, hnamed⟩

/-! ### Evaluation -/

/-- The values of the fields are those of their texts by themselves, from the first to the last. -/
theorem FieldPart.exec_evalAll {env : Environment} {element : Ty} {args : List Argument} {symbols : Symbols}
    {parts : List FieldPart} {named : List (String × Expr)} {row : Value}
    (hparts : ∀ p ∈ parts, p.Compiled env element args symbols) (h : List.Forall₂ FieldPart.ReadAs parts named)
    {s : Slots} (hs : s.StartWith [row]) :
    (Eval.exec (env.catalog.evalAll (named.map (·.2))) s).1 =
      parts.mapM fun p => env.catalog.evalLambda p.value [row] := by
  induction h generalizing s with
  | nil => rfl
  | @cons part f parts named hread _ ih =>
      obtain ⟨hpart, hparts⟩ := List.forall_mem_cons.mp hparts
      obtain ⟨-, shift, hvalue⟩ := hread
      have hone : part.value.params.length = 1 := by
        rw [hpart.compiles.derives.1, Environment.length_bindParams, List.length_singleton]
      have hfix : ∀ n, n < part.value.params.length → raise 1 shift n = n := fun n hn => raise_of_lt (by omega)
      have hrow : [row].length = part.value.params.length := hone.symm
      obtain ⟨hfirst, hstart⟩ := hpart.compiles.disciplined.exec_renamed env.catalog (raise_injective 1 shift)
        hfix hrow hs
      rw [← hvalue] at hfirst hstart
      rw [List.map_cons, Catalog.evalAll, List.mapM_cons, Eval.exec_bind, ← hfirst]
      rcases hrun : Eval.exec (env.catalog.eval f.2) s with ⟨e | v, t⟩
      · rfl
      · have ht : t.StartWith [row] := by rwa [hrun] at hstart
        simp only [Eval.exec_bind]
        rw [← ih hparts ht]
        generalize Eval.exec (env.catalog.evalAll (named.map (·.2))) t = run
        rcases run with ⟨e | vs, u⟩ <;> rfl

/-- An object is made from the values of the texts of its fields. -/
theorem Environment.Compiles.evalLambda_projected {env : Environment} {element : Ty} {args : List Argument}
    {symbols : Symbols} {parts : List FieldPart} {l : Lambda}
    (hsymbols : Symbols.ofText (bindParams [⟨none, element⟩]) args = .ok symbols) (hne : parts ≠ [])
    (hparts : ∀ p ∈ parts, p.Compiled env element args symbols)
    (h : env.Compiles [⟨none, element⟩] none (Query.projected (parts.map FieldPart.written)) args l) :
    l.resultType = .cls (.ofFields (parts.map FieldPart.typed)) ∧
      ∀ row v, env.catalog.evalLambda l [row] = .ok v → ∃ vs,
        v = .object (.ofFields (parts.map FieldPart.typed)) vs [] ∧
        List.Forall₂ (fun p v => env.catalog.evalLambda p.value [row] = .ok v) parts vs := by
  have hdisciplined := h.disciplined
  obtain ⟨hparams, named, hbody, hnamed⟩ := h.projected hsymbols hne hparts
  have htyped := FieldPart.typed_eq hnamed
  refine ⟨by rw [Lambda.resultType, hbody, ← htyped]; rfl, fun row v hv => ?_⟩
  have hone : [row].length = l.params.length := by
    rw [hparams, length_bindParams, List.length_singleton, List.length_singleton]
  have hstart : (Slots.ofArguments l.slots l.params [row]).StartWith [row] :=
    fun i hi => Slots.getElem?_ofArguments hdisciplined.params hone l.slots hi
  rw [Catalog.evalLambda, if_pos hone, hbody, Typing.projection, Catalog.eval] at hv
  have hv : (Eval.exec (env.catalog.evalAll (named.map (·.2)) >>= fun vs =>
      pure (.object (.ofFields (named.map fun f => (f.1, f.2.ty))) vs [])) _).1 = .ok v := hv
  have hvalues := FieldPart.exec_evalAll hparts hnamed hstart
  rw [Eval.exec_bind] at hv
  rcases hrun : Eval.exec (env.catalog.evalAll (named.map (·.2))) _ with ⟨e | vs, t⟩
  · rw [hrun] at hv
    cases hv
  · rw [hrun] at hv hvalues
    cases hv
    exact ⟨vs, by rw [htyped], mapM_eq_ok.mp hvalues.symm⟩

/-! ### Reading a field back -/

/-- The property of a shape is its first field of that name, in any case. -/
theorem Catalog.property?_ofFields (cat : Catalog) {before after : List (String × Ty)} {name other : String}
    {ty : Ty} (hname : Text.sameName name other)
    (hbefore : ∀ f ∈ before, Text.sameName f.1 other = false) :
    cat.property? (.cls (.ofFields (before ++ (name, ty) :: after))) other false =
      some ⟨name, ty, false, .field before.length⟩ := by
  have hproperties : cat.fieldProperties (.ofFields (before ++ (name, ty) :: after)) =
      (before ++ (name, ty) :: after).zipIdx.map fun f => ⟨f.1.1, f.1.2, false, .field f.2⟩ := by
    rw [Catalog.fieldProperties, Catalog.fields_ofFields]
    simp [Catalog.ownFields, Class.ofFields]
  have hnone : (before.zipIdx.find? fun f => Text.sameName f.1.1 other) = none :=
    List.find?_eq_none.mpr fun f hf => by simp [hbefore f.1 (List.fst_mem_of_mem_zipIdx hf)]
  have hfirst : ((before ++ (name, ty) :: after).zipIdx.find? fun f => Text.sameName f.1.1 other) =
      some ((name, ty), before.length) := by
    simp [List.zipIdx_append, hnone, hname]
  have hfind : (cat.members (.ofFields (before ++ (name, ty) :: after))).property? other false =
      some ⟨name, ty, false, .field before.length⟩ := by
    show (cat.fieldProperties (.ofFields (before ++ (name, ty) :: after))).find? _ = _
    rw [hproperties, List.find?_map]
    exact congrArg (Option.map _) hfirst
  rw [Catalog.property?, Catalog.memberChain, Catalog.declaredMembers, Class.ofFields, Catalog.lineage_shape]
  exact (List.findSome?_cons_of_isSome (by rw [← Class.ofFields, hfind]; rfl)).trans hfind

/-- Reads a property of the implicit parameter. -/
def Lambda.ofProperty (ty : Ty) (p : Property) : Lambda :=
  ⟨Environment.bindParams [⟨none, ty⟩], .property p.ty p (some (.param ty 0)), 1⟩

theorem Environment.compiles_property {env : Environment} {ty : Ty} {p : Property} {name : String}
    {args : List Argument} {symbols : Symbols} (hname : Lexeme.Whole ⟨.identifier, name⟩)
    (hp : env.catalog.property? ty (unmarked name) false = some p) (hargs : Symbols.ofText [] args = .ok symbols) :
    env.Compiles [⟨none, ty⟩] none ("it." ++ name) args (.ofProperty ty p) := by
  have hsymbols : Symbols.ofText (bindParams [⟨none, ty⟩]) args = .ok symbols := hargs
  have htyped : Typing.property env.catalog (.value (.param ty 0)) (unmarked name) =
      .ok (.property p.ty p (some (.param ty 0))) := by
    have hp : env.catalog.property? (Typing.Receiver.value (.param ty 0)).ty (unmarked name) false = some p := hp
    rw [Typing.property, show (Typing.Receiver.value (.param ty 0)).isStatic = false from rfl, hp]
    rfl
  have hmember : Takes (member (level (maxDepth - 1)) (.value (.param ty 0)))
      (env.scope (bindParams [⟨none, ty⟩]) symbols) (1, .empty) [⟨.identifier, name⟩] _ (1, .empty) [] :=
    takes_property (by decide) htyped
  have hscans : Scans ("it." ++ name).toList [⟨.identifier, "it"⟩, dot, ⟨.identifier, name⟩] := by
    rw [String.toList_append]
    exact (Scans.single hname).implicit_member
  exact compiles_of_takes hsymbols hscans (takes_implicit_member rfl hmember (.nil 0)) (by simp)

theorem Catalog.evalLambda_ofProperty (cat : Catalog) {ty field : Ty} {c : Class} {vs : List Value} {v : Value}
    {name : String} {i : Nat} (h : vs[i]? = some v) :
    cat.evalLambda (.ofProperty ty ⟨name, field, false, .field i⟩) [.object c vs []] = .ok v := by
  have hget : Eval.property cat ⟨name, field, false, .field i⟩ (some (.object c vs [])) = .ok v := by
    simp [Eval.property, h, Operation.orElse]
  have hslot : (Slots.ofArguments 1 (Environment.bindParams [⟨none, ty⟩]) [Value.object c vs []])[0]? =
      some (.object c vs []) := Slots.getElem?_ofArguments rfl rfl 1 (by simp)
  have hone : [Value.object c vs []].length =
      (Lambda.ofProperty ty ⟨name, field, false, .field i⟩).params.length := rfl
  rw [Catalog.evalLambda, if_pos hone]
  show (Eval.exec (cat.eval (.property field ⟨name, field, false, .field i⟩ (some (.param ty 0)))) _).1 = .ok v
  rw [Catalog.eval, Catalog.evalReceiver, Catalog.eval]
  simp only [Eval.exec_bind, Lambda.ofProperty, Eval.exec_slot hslot]
  show (Eval.exec (Eval.rule (Eval.property cat _ (some (.object c vs [])))) _).1 = .ok v
  rw [hget]
  rfl

/-- What is done to each of many, and then to what comes of each, comes to the same as something else done to
each. -/
theorem forall₂_exists_both {α β γ : Type} {R : α → β → Prop} {S : α → γ → Prop} {T : β → γ → Prop}
    {as : List α} {bs : List β} (h : List.Forall₂ R as bs) (hstep : ∀ a b, R a b → ∃ c, S a c ∧ T b c) :
    ∃ cs, List.Forall₂ S as cs ∧ List.Forall₂ T bs cs := by
  induction h with
  | nil => exact ⟨[], .nil, .nil⟩
  | cons hR _ ih =>
      obtain ⟨c, hS, hT⟩ := hstep _ _ hR
      obtain ⟨cs, hSs, hTs⟩ := ih
      exact ⟨c :: cs, .cons hS hSs, .cons hT hTs⟩

/-- The parts of a text that makes an object, of texts that compile by themselves. -/
theorem Environment.exists_parts {env : Environment} {element : Ty} {args : List Argument} {symbols : Symbols}
    {fields : List (String × String)}
    (hsymbols : Symbols.ofText (bindParams [⟨none, element⟩]) args = .ok symbols)
    (h : ∀ f ∈ fields, (∃ l, env.Compiles [⟨none, element⟩] none f.1 args l) ∧ Lexeme.Whole ⟨.identifier, f.2⟩) :
    ∃ parts : List FieldPart, parts.map FieldPart.written = fields ∧
      ∀ p ∈ parts, p.Compiled env element args symbols := by
  induction fields with
  | nil => exact ⟨[], rfl, by simp⟩
  | cons f fields ih =>
      obtain ⟨⟨⟨l, hl⟩, hname⟩, hfields⟩ := List.forall_mem_cons.mp h
      obtain ⟨part, hwritten, hpart⟩ := hl.part hsymbols hname
      obtain ⟨parts, rfl, hparts⟩ := ih hfields
      exact ⟨part :: parts, by rw [List.map_cons, hwritten], List.forall_mem_cons.mpr ⟨hpart, hparts⟩⟩

/-- Fields of a new shape can be read back: after objects are made of texts that compile by themselves, a name
gives what the text of the first field of that name gives, where names are compared in any case and without a
mark. -/
theorem Query.select_field {env : Environment} {q q' : Query} {fields : List (String × String)}
    {args later : List Argument} {text name other : String} {shapes : Shapes}
    (hfields : ∀ f ∈ fields, (∃ l, env.Compiles [⟨none, q.element⟩] none f.1 args l) ∧
      Lexeme.Whole ⟨.identifier, f.2⟩)
    (hselect : ((q.select env (Query.projected fields) args).exec shapes).1 = .ok q')
    (hlater : ∃ symbols, Symbols.ofText [] later = .ok symbols) (hother : Lexeme.Whole ⟨.identifier, other⟩)
    (hfirst : fields.find? (fun f => Text.sameName (unmarked f.2) (unmarked other)) = some (text, name)) :
    ∃ q'', ∀ made, ((q'.select env ("it." ++ other) later).exec made).1 = .ok q'' ∧
      ((q.select env text args).exec made).1 = .ok q'' := by
  obtain ⟨l, hl, helement, hrows⟩ := select_eq_ok hselect
  obtain ⟨hparams, symbols, -, hsymbols, -⟩ := hl.derives
  rw [hparams] at hsymbols
  obtain ⟨parts, rfl, hparts⟩ := Environment.exists_parts hsymbols hfields
  rw [List.find?_map] at hfirst
  obtain ⟨part, hpart, hwritten⟩ := Option.map_eq_some_iff.mp hfirst
  obtain ⟨hsame, before, after, rfl, hbefore⟩ := List.find?_eq_some_iff_append.mp hpart
  obtain ⟨symbols', hlater⟩ := hlater
  obtain ⟨hcls, hobjects⟩ := hl.evalLambda_projected hsymbols (by simp) hparts
  have hproperty : env.catalog.property? q'.element (unmarked other) false =
      some ⟨unmarked part.name, part.value.resultType, false, .field before.length⟩ := by
    rw [helement, hcls, List.map_append, List.map_cons, ← List.length_map FieldPart.typed]
    refine Catalog.property?_ofFields env.catalog hsame fun f hf => ?_
    obtain ⟨p, hp, rfl⟩ := List.mem_map.mp hf
    simpa [FieldPart.typed, FieldPart.written] using hbefore p hp
  have hcompiled := hparts part (by simp)
  have hread := Environment.compiles_property hother hproperty hlater
  have hrow : ∀ row v, env.catalog.evalLambda l [row] = .ok v → ∃ w,
      env.catalog.evalLambda part.value [row] = .ok w ∧ env.catalog.evalLambda
        (.ofProperty q'.element ⟨unmarked part.name, part.value.resultType, false, .field before.length⟩) [v] =
          .ok w := by
    intro row v hv
    obtain ⟨vs, rfl, hvs⟩ := hobjects row v hv
    have hlength : before.length < vs.length := by
      rw [← hvs.length_eq]
      simp
    have hvalue := hvs.get (by simp) hlength
    refine ⟨vs[before.length], by simpa using hvalue, ?_⟩
    exact env.catalog.evalLambda_ofProperty (List.getElem?_eq_getElem hlength)
  obtain ⟨rows, halone, hfield⟩ := forall₂_exists_both hrows hrow
  obtain ⟨rfl, rfl⟩ := Prod.mk.inj hwritten
  exact ⟨⟨part.value.resultType, rows⟩, fun made =>
    ⟨exec_select hread hfield made, exec_select hcompiled.compiles halone made⟩⟩

/-- Cells with a field whose name has a mark and comes once more in other letters. -/
theorem Query.select_field_cells :
    let q : Query := ⟨.cls .cell, [3, 12].map fun n => .object .cell [.int32 n] []⟩
    let args : List Argument := [.value (.int32 5)]
    ∃ q' q'',
      ((q.select .cells "new (X * 2 as Twice, X > @0 as @Big, X as BIG)" args).exec .empty).1 = .ok q' ∧
      ∀ made, ((q'.select .cells "it.big" []).exec made).1 = .ok q'' ∧
        ((q.select .cells "X > @0" args).exec made).1 = .ok q'' := by
  intro q args
  let fields := [("X * 2", "Twice"), ("X > @0", "@Big"), ("X", "BIG")]
  have htext : Query.projected fields = "new (X * 2 as Twice, X > @0 as @Big, X as BIG)" := by decide +kernel
  have hrun : ((q.select .cells (Query.projected fields) args).exec .empty).1.toOption.any fun _ => true := by
    decide +kernel
  obtain ⟨q', hq', -⟩ := toOption_any.mp hrun
  have hcompiles : ∀ text ∈ ["X * 2", "X > @0", "X"],
      ∃ l, Environment.cells.Compiles [⟨none, q.element⟩] none text args l := by
    intro text htext
    have hall : ["X * 2", "X > @0", "X"].all fun text =>
        ((Environment.cells.compile [⟨none, q.element⟩] none text args).exec .empty).1.toOption.any fun _ => true := by
      decide +kernel
    obtain ⟨l, hl, -⟩ := Environment.exists_compiles (List.all_eq_true.mp hall text htext)
    exact ⟨l, hl⟩
  have hfields : ∀ f ∈ fields, (∃ l, Environment.cells.Compiles [⟨none, q.element⟩] none f.1 args l) ∧
      Lexeme.Whole ⟨.identifier, f.2⟩ := by
    refine List.forall_mem_cons.mpr ⟨⟨hcompiles _ (by simp), _, _, rfl, by decide, rfl⟩, ?_⟩
    refine List.forall_mem_cons.mpr ⟨⟨hcompiles _ (by simp), _, _, rfl, by decide, rfl⟩, ?_⟩
    exact List.forall_mem_singleton.mpr ⟨hcompiles _ (by simp), _, _, rfl, by decide, rfl⟩
  have hlater : ∃ symbols, Symbols.ofText [] ([] : List Argument) = .ok symbols := ⟨_, rfl⟩
  have hother : Lexeme.Whole ⟨.identifier, "big"⟩ := ⟨_, _, rfl, by decide, rfl⟩
  have hfirst : fields.find? (fun f => Text.sameName (unmarked f.2) (unmarked "big")) =
      some ("X > @0", "@Big") := by
    decide +kernel
  obtain ⟨q'', hq''⟩ := select_field hfields hq' hlater hother hfirst
  rw [htext] at hq'
  exact ⟨q', q'', hq', hq''⟩

/-- Of two fields whose names differ in case only, the name of the second one gives the first one. -/
theorem Query.select_field_shadowed :
    let q : Query := ⟨.int32, [.int32 5]⟩
    ∃ q' q₁ q₂, ((q.select .cells "new (1 as a, 2 as A)" []).exec .empty).1 = .ok q' ∧
      ((q'.select .cells "it.A" []).exec .empty).1 = .ok q₁ ∧ q₁.rows.map Value.int32? = [some 1] ∧
      ((q.select .cells "2" []).exec .empty).1 = .ok q₂ ∧ q₂.rows.map Value.int32? = [some 2] := by
  intro q
  have hfields : ((q.select .cells "new (1 as a, 2 as A)" []).exec .empty).1.toOption.any fun q' =>
      ((q'.select .cells "it.A" []).exec .empty).1.toOption.any fun q₁ => q₁.rows.map Value.int32? = [some 1] := by
    decide +kernel
  have halone : ((q.select .cells "2" []).exec .empty).1.toOption.any fun q₂ =>
      q₂.rows.map Value.int32? = [some 2] := by
    decide +kernel
  obtain ⟨q', hq', hread⟩ := toOption_any.mp hfields
  obtain ⟨q₁, hq₁, hone⟩ := toOption_any.mp hread
  obtain ⟨q₂, hq₂, htwo⟩ := toOption_any.mp halone
  exact ⟨q', q₁, q₂, hq', hq₁, of_decide_eq_true hone, hq₂, of_decide_eq_true htwo⟩

end RowQuery
