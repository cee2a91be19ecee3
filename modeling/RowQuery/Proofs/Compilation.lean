import RowQuery.Compile
import RowQuery.Proofs.Derivation
import RowQuery.Proofs.Resolution

/-!
What compilation amounts to. A text that compiles is a derivation in the scope of its parameters and
arguments, with the slots after those of the parameters to give out; a property of all symbols is one of
the parameters and of what the arguments bring.
-/

namespace RowQuery

open Parse

theorem toOption_any {ε α : Type} {r : Except ε α} {p : α → Bool} : r.toOption.any p ↔ ∃ a, r = .ok a ∧ p a := by
  cases r <;> simp [Except.toOption]

theorem toOption_isSome {ε α : Type} {r : Except ε α} : r.toOption.isSome ↔ ∃ a, r = .ok a := by
  cases r <;> simp [Except.toOption]

/-- The failure of what did not succeed. -/
def failure? {ε α : Type} : Except ε α → Option ε
  | .ok _ => none
  | .error e => some e

theorem failure?_any {ε α : Type} {r : Except ε α} {p : ε → Bool} :
    (failure? r).any p ↔ ∃ e, r = .error e ∧ p e := by
  cases r <;> simp [failure?]

theorem toOption_eq_some {ε α : Type} {r : Except ε α} {a : α} : r.toOption = some a ↔ r = .ok a := by
  cases r <;> simp [Except.toOption]

namespace Shaping

variable {ε α β : Type}

/-- What a computation does to the shapes that were made. -/
def exec (p : Shaping ε α) (shapes : Shapes) : Except ε α × Shapes := p shapes

theorem exec_bind (p : Shaping ε α) (f : α → Shaping ε β) (shapes : Shapes) :
    exec (p >>= f) shapes =
      match exec p shapes with
      | (.ok a, made) => exec (f a) made
      | (.error e, made) => (.error e, made) := by
  simp only [exec, bind, ExceptT.bind, ExceptT.mk, StateT.bind, ExceptT.bindCont]
  rcases p shapes with ⟨r, made⟩
  cases r <;> rfl

theorem exec_pure (a : α) (shapes : Shapes) : exec (pure a : Shaping ε α) shapes = (.ok a, shapes) := rfl

theorem exec_map_eq_ok {p : Shaping ε α} {f : α → β} {shapes made : Shapes} {b : β} :
    exec (do return f (← p)) shapes = (.ok b, made) ↔ ∃ a, exec p shapes = (.ok a, made) ∧ f a = b := by
  rw [exec_bind]
  rcases exec p shapes with ⟨r, m⟩
  cases r with
  | error e => simp
  | ok a =>
      simp only [exec_pure, Prod.mk.injEq, Except.ok.injEq]
      constructor
      · rintro ⟨hb, hm⟩
        exact ⟨a, ⟨rfl, hm⟩, hb⟩
      · rintro ⟨_, ⟨rfl, hm⟩, hb⟩
        exact ⟨hb, hm⟩

end Shaping

/-! ### Texts -/

namespace Environment

/-- A text compiles to an expression. -/
def Compiles (env : Environment) (params : List ParamDecl) (result : Option Ty) (text : String)
    (args : List Argument) (l : Lambda) : Prop :=
  ∃ shapes, ((env.compile params result text args).exec shapes).1 = .ok l

/-- A text compiles to the keys of an ordering. -/
def CompilesOrdering (env : Environment) (element : Ty) (text : String) (args : List Argument)
    (keys : List SortKey) : Prop :=
  ∃ shapes, ((env.compileOrdering element text args).exec shapes).1 = .ok keys

variable {α : Type} {env : Environment} {params : List Param} {args : List Argument} {text : String}

theorem bindParams_slots (decls : List ParamDecl) :
    (bindParams decls).map (·.slot) = List.range (bindParams decls).length := by
  rw [bindParams, List.map_map, List.length_map, List.length_zipIdx, List.range_eq_range']
  exact List.zipIdx_map_snd 0 decls

theorem length_bindParams (decls : List ParamDecl) : (bindParams decls).length = decls.length := by
  rw [bindParams, List.length_map, List.length_zipIdx]

/-- Only the slots are new. -/
theorem map_bindParams {β : Type} (f : Option String → Ty → β) (decls : List ParamDecl) :
    (bindParams decls).map (fun p => f p.name p.ty) = decls.map fun p => f p.name p.ty := by
  have h : (bindParams decls).map (fun p => f p.name p.ty) =
      (decls.zipIdx.map Prod.fst).map fun p => f p.name p.ty := by
    rw [bindParams, List.map_map, List.map_map]
    rfl
  rw [h, List.zipIdx_map_fst]

theorem bindParams_types (decls : List ParamDecl) :
    (bindParams decls).map (·.ty) = decls.map (·.ty) := map_bindParams (fun _ t => t) decls

/-- A text is read from its start in the scope of its parameters and arguments. -/
theorem reading_eq_ok {phrase : Parse α} {shapes shapes' : Shapes} {a : α} {slots : Nat} :
    (env.reading params args text phrase).exec shapes = (.ok (a, slots), shapes') ↔
      ∃ symbols after, Symbols.ofText params args = .ok symbols ∧
        Reads (do advance; phrase) (env.scope params symbols) (start params text shapes) a after ∧
        after.slots = slots ∧ after.shapes = shapes' := by
  cases hsymbols : Symbols.ofText params args with
  | error fault =>
      simp [reading, Shaping.exec, hsymbols]
  | ok symbols =>
      rcases hexec : Parse.exec (do advance; phrase) (env.scope params symbols) (start params text shapes)
        with ⟨r, after⟩
      have hrun : (env.reading params args text phrase).exec shapes =
          match r with
          | .ok a => (.ok (a, after.slots), after.shapes)
          | .error e => (.error e, after.shapes) := by
        rw [Parse.exec] at hexec
        simp only [reading, Shaping.exec, hsymbols]
        rw [hexec]
        cases r <;> rfl
      rw [hrun]
      cases r with
      | error e => simp [Reads, hexec]
      | ok b =>
          constructor
          · intro h
            simp only [Prod.mk.injEq, Except.ok.injEq] at h
            obtain ⟨⟨rfl, hslots⟩, hshapes⟩ := h
            exact ⟨symbols, after, rfl, hexec, hslots, hshapes⟩
          · rintro ⟨_, _, heq, hreads, rfl, rfl⟩
            cases heq
            rw [Reads, hexec] at hreads
            cases hreads
            rfl

/-- A compilation whose outcome passes a check. -/
theorem exists_compiles {decls : List ParamDecl} {result : Option Ty} {check : Lambda → Bool}
    (h : (((env.compile decls result text args).exec .empty).1.toOption.any check) = true) :
    ∃ l, env.Compiles decls result text args l ∧ check l := by
  obtain ⟨l, hrun, hcheck⟩ := toOption_any.mp h
  exact ⟨l, ⟨.empty, hrun⟩, hcheck⟩

/-- A compiled body is derived in the scope of the text and then made to have the type that is asked for. -/
theorem Compiles.derives {decls : List ParamDecl} {result : Option Ty} {l : Lambda}
    (h : env.Compiles decls result text args l) :
    l.params = bindParams decls ∧ ∃ symbols body, Symbols.ofText l.params args = .ok symbols ∧
      Derives (env.scope l.params symbols) l.params.length l.slots [body] ∧
      Typing.result env.catalog body result = .ok l.body := by
  obtain ⟨shapes, h⟩ := h
  obtain ⟨⟨e, slots⟩, hread, rfl⟩ := Shaping.exec_map_eq_ok.mp (Prod.ext h rfl)
  obtain ⟨symbols, after, hsymbols, hreads, rfl, -⟩ := reading_eq_ok.mp hread
  obtain ⟨_, s, hadvance, hwhole⟩ := reads_bind.mp hreads
  obtain ⟨body, hderives, hresult⟩ := Grammar.whole_reads hwhole
  rw [(reads_advance hadvance).1] at hderives
  exact ⟨rfl, symbols, body, hsymbols, hderives, hresult⟩

/-- The keys of an ordering are derived one after the other in one scope, and share the slots. -/
theorem CompilesOrdering.derives {element : Ty} {keys : List SortKey}
    (h : env.CompilesOrdering element text args keys) :
    ∃ symbols slots, Symbols.ofText (bindParams [⟨none, element⟩]) args = .ok symbols ∧
      Derives (env.scope (bindParams [⟨none, element⟩]) symbols) 1 slots
        (keys.map (·.selector.body)) ∧
      ∀ key ∈ keys, key.selector.params = bindParams [⟨none, element⟩] ∧ key.selector.slots = slots := by
  obtain ⟨shapes, h⟩ := h
  obtain ⟨⟨es, slots⟩, hread, rfl⟩ := Shaping.exec_map_eq_ok.mp (Prod.ext h rfl)
  obtain ⟨symbols, after, hsymbols, hreads, rfl, -⟩ := reading_eq_ok.mp hread
  obtain ⟨_, s, hadvance, hordering⟩ := reads_bind.mp hreads
  have hderives := Grammar.ordering_reads hordering
  rw [(reads_advance hadvance).1] at hderives
  refine ⟨symbols, after.slots, hsymbols, ?_, ?_⟩
  · rw [List.map_map]
    exact hderives
  · intro key hkey
    obtain ⟨_, _, rfl⟩ := List.mem_map.mp hkey
    exact ⟨rfl, rfl⟩

end Environment

/-! ### Symbols -/

theorem mem_of_lookup {β : Type} {l : List (String × β)} {name : String} {b : β}
    (h : l.lookup name = some b) : (name, b) ∈ l := by
  obtain ⟨before, after, rfl, -⟩ := List.lookup_eq_some_iff.mp h
  exact List.mem_append_right _ List.mem_cons_self

/-- The symbols that an argument brings. -/
def Argument.symbols : Argument → List Symbol
  | .value v => [.expr (.constant v.naturalType v)]
  | .typed v ty => [.expr (.constant ty v)]
  | .lambda l => [.lambda l]
  | .named values => values.map fun (_, v) => .expr (.constant v.naturalType v)

theorem Argument.exists_constant {arg : Argument} {e : Expr} (h : .expr e ∈ arg.symbols) :
    ∃ ty v, e = .constant ty v := by
  cases arg with
  | lambda l => cases List.mem_singleton.mp h
  | value v =>
      cases List.mem_singleton.mp h
      exact ⟨_, _, rfl⟩
  | typed v ty =>
      cases List.mem_singleton.mp h
      exact ⟨_, _, rfl⟩
  | named values =>
      obtain ⟨x, _, hx⟩ := List.mem_map.mp h
      cases hx
      exact ⟨_, _, rfl⟩

/-- What every step of a fold keeps, the fold keeps. -/
theorem foldlM_keeps {ε α β : Type} {I : β → Prop} {step : β → α → Except ε β} {as : List α} {b b' : β}
    (hstep : ∀ a ∈ as, ∀ {before after}, step before a = .ok after → I before → I after)
    (h : as.foldlM step b = .ok b') (hb : I b) : I b' := by
  induction as generalizing b with
  | nil =>
      cases h
      exact hb
  | cons a as ih =>
      rw [List.foldlM_cons] at h
      obtain ⟨between, ha, has⟩ := Typing.bind_eq_ok.mp h
      exact ih (fun a ha => hstep a (List.mem_cons_of_mem _ ha)) has (hstep a List.mem_cons_self ha hb)

namespace Symbols

variable {P : Symbol → Prop} {symbols symbols' : Symbols}

theorem forall_insert {name : String} {sym : Symbol} (h : symbols.insert name sym = .ok symbols')
    (hsymbols : ∀ x ∈ symbols, P x.2) (hsym : P sym) : ∀ x ∈ symbols', P x.2 := by
  unfold insert at h
  split at h
  · cases h
  · cases h
    exact List.forall_mem_append.mpr ⟨hsymbols, List.forall_mem_singleton.mpr hsym⟩

theorem forall_insertParams {params : List Param} (h : symbols.insertParams params = .ok symbols')
    (hsymbols : ∀ x ∈ symbols, P x.2) (hparams : ∀ p ∈ params, P (.expr (.param p.ty p.slot))) :
    ∀ x ∈ symbols', P x.2 := by
  refine foldlM_keeps (I := fun symbols => ∀ x ∈ symbols, P x.2) ?_ h hsymbols
  intro p hp before after hstep hbefore
  split at hstep
  · exact forall_insert hstep hbefore (hparams p hp)
  · cases hstep
    exact hbefore

theorem forall_insertArguments {args : List Argument} {position : Nat}
    (h : symbols.insertArguments position args = .ok symbols') (hsymbols : ∀ x ∈ symbols, P x.2)
    (hargs : ∀ arg ∈ args, ∀ sym ∈ arg.symbols, P sym) : ∀ x ∈ symbols', P x.2 := by
  fun_induction insertArguments symbols position args with
  | case1 =>
      cases h
      exact hsymbols
  | case2 symbols position values =>
      refine foldlM_keeps (I := fun symbols => ∀ x ∈ symbols, P x.2) ?_ h hsymbols
      rintro ⟨name, v⟩ hv before after hstep hbefore
      refine forall_insert hstep hbefore (hargs _ List.mem_cons_self _ ?_)
      exact List.mem_map_of_mem (f := fun (_, v) => Symbol.expr (.constant v.naturalType v))
        (List.mem_mergeSort.mp hv)
  | case3 => cases h
  | case7 symbols position args rest values _ hnamed =>
      exact absurd rfl (hnamed values)
  | case4 symbols position args name rest v _ _ ih
  | case5 symbols position args name rest v ty _ _ ih
  | case6 symbols position args name rest l _ _ ih =>
      obtain ⟨between, harg, hrest⟩ := Typing.bind_eq_ok.mp h
      obtain ⟨hsyms, hargs⟩ := List.forall_mem_cons.mp hargs
      exact ih between hrest (forall_insert harg hsymbols (hsyms _ List.mem_cons_self)) hargs

/-- What holds of parameters and of what the arguments bring holds of every symbol of a text. -/
theorem forall_ofText {params : List Param} {args : List Argument} (h : ofText params args = .ok symbols)
    (hparams : ∀ p ∈ params, P (.expr (.param p.ty p.slot)))
    (hargs : ∀ arg ∈ args, ∀ sym ∈ arg.symbols, P sym) : ∀ x ∈ symbols, P x.2 := by
  obtain ⟨named, hnamed, hall⟩ := Typing.bind_eq_ok.mp h
  exact forall_insertArguments hall (forall_insertParams hnamed (by simp) hparams) hargs

theorem lookup_isSome {name : String} : (symbols.lookup name).isSome ↔ name ∈ symbols.map Prod.fst := by
  induction symbols with
  | nil => simp
  | cons entry symbols ih =>
      rw [List.lookup_cons, List.map_cons, List.mem_cons, ← ih]
      cases hname : name == entry.1 with
      | true => simp [beq_iff_eq.mp hname]
      | false => simp [beq_eq_false_iff_ne.mp hname]

/-- A name and what it stands for, by the name in small letters. -/
def folded (entry : String × Symbol) : String × Symbol := (Text.fold entry.1, entry.2)

/-- Declares one name after the other. -/
def insertAll (symbols : Symbols) (entries : List (String × Symbol)) : Except Fault Symbols :=
  entries.foldlM (fun symbols entry => symbols.insert entry.1 entry.2) symbols

/-- Names are declared as long as they are all different. -/
theorem insertAll_eq_ok {entries : List (String × Symbol)} (h : (symbols.map Prod.fst).Nodup) :
    symbols.insertAll entries = .ok symbols' ↔
      ((symbols ++ entries.map folded).map Prod.fst).Nodup ∧ symbols' = symbols ++ entries.map folded := by
  induction entries generalizing symbols with
  | nil =>
      rw [List.map_nil, List.append_nil]
      show Except.ok symbols = .ok symbols' ↔ _
      simp [h, eq_comm]
  | cons entry entries ih =>
      have hnodup : ((symbols ++ [folded entry]).map Prod.fst).Nodup ↔
          Text.fold entry.1 ∉ symbols.map Prod.fst := by
        rw [List.map_append, List.map_singleton, List.nodup_append]
        refine ⟨fun hall hmem => hall.2.2 _ hmem _ List.mem_cons_self rfl, fun hmem => ⟨h, by simp, ?_⟩⟩
        rintro name hname _ hsingle rfl
        rw [List.mem_singleton.mp hsingle] at hname
        exact hmem hname
      rw [insertAll, List.foldlM_cons, List.map_cons, List.append_cons, insert]
      by_cases hmem : Text.fold entry.1 ∈ symbols.map Prod.fst
      · rw [if_pos (lookup_isSome.mpr hmem)]
        refine iff_of_false (fun hok => by cases hok) fun hall => ?_
        rw [List.map_append] at hall
        exact hnodup.mp (List.nodup_append.mp hall.1).1 hmem
      · rw [if_neg (mt lookup_isSome.mp hmem)]
        exact ih (hnodup.mpr hmem)

/-- The name of a parameter and what it stands for. -/
def binding? (p : Param) : Option (String × Symbol) :=
  p.name.map fun name => (name, .expr (.param p.ty p.slot))

theorem insertParams_eq_insertAll (params : List Param) :
    symbols.insertParams params = symbols.insertAll (params.filterMap binding?) := by
  induction params generalizing symbols with
  | nil => rfl
  | cons p params ih =>
      rw [insertParams, List.foldlM_cons, List.filterMap_cons]
      cases hname : p.name with
      | none =>
          rw [binding?, hname]
          exact ih
      | some name =>
          rw [binding?, hname]
          exact congrArg (bind _) (funext fun _ => ih)

theorem binding?_keys (decls : List ParamDecl) :
    (((Environment.bindParams decls).filterMap binding?).map folded).map Prod.fst =
      (decls.filterMap (·.name)).map Text.fold := by
  have hbinding : ∀ params : List Param, ((params.filterMap binding?).map folded).map Prod.fst =
      (params.map (·.name)).filterMap (Option.map Text.fold) := by
    intro params
    rw [List.map_filterMap, List.map_filterMap, List.filterMap_map]
    simp [binding?, folded, Function.comp_def]
  rw [hbinding, Environment.map_bindParams (fun name _ => name), List.map_filterMap, List.filterMap_map]
  rfl

/-- Parameters with different names are all declared. -/
theorem insertParams_eq {params : List Param} (h : (((params.filterMap binding?).map folded).map Prod.fst).Nodup) :
    insertParams [] params = .ok ((params.filterMap binding?).map folded) := by
  rw [insertParams_eq_insertAll]
  exact (insertAll_eq_ok (by simp)).mpr ⟨h, rfl⟩

theorem lookup_eq_some {name : String} {sym : Symbol} (h : (symbols.map Prod.fst).Nodup)
    (hmem : (name, sym) ∈ symbols) : symbols.lookup name = some sym := by
  obtain ⟨before, after, rfl⟩ := List.append_of_mem hmem
  refine List.lookup_eq_some_iff.mpr ⟨before, after, rfl, ?_⟩
  intro entry hbinding
  rw [List.map_append, List.nodup_append] at h
  simpa using Ne.symm (h.2.2 _ (List.mem_map_of_mem hbinding) _ List.mem_cons_self)

end Symbols

end RowQuery
