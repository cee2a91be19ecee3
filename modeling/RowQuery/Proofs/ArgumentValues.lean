import Mathlib.Data.List.Perm.Basic
import RowQuery.Proofs.Respelling
import RowQuery.Proofs.SlotDiscipline

/-!
Values that are supplied under a name. A name that stands for a value and a parameter of that name compile
alike: the second text differs from the first one in one place of each use, where the value stands for the
parameter, and in the slots after it. Evaluated with the value for the parameter, both come to the same.
-/

namespace RowQuery

open Parse Grammar

/-! ### A value for a parameter -/

/-- Slots after one that is taken out move down. -/
def lower (k n : Nat) : Nat := if n ≤ k then n else n - 1

theorem lower_of_le {k n : Nat} (h : n ≤ k) : lower k n = n := if_pos h

theorem lower_of_lt {k n : Nat} (h : k < n) : lower k n = n - 1 := if_neg (Nat.not_le.mpr h)

theorem lower_inj {k m n : Nat} (hm : m ≠ k) (hn : k < n) (h : lower k m = lower k n) : m = n := by
  rw [lower_of_lt hn] at h
  unfold lower at h
  split at h <;> omega

/-- A value stands for the parameter in a slot. -/
def Exchange.fill (k : Nat) (v : Value) : Exchange where
  param ty n := if n = k then .constant ty v else .param ty (lower k n)
  slot := lower k
  leaf ty n := by
    by_cases h : n = k
    · exact Or.inr ⟨v, if_pos h⟩
    · exact Or.inl ⟨lower k n, if_neg h⟩
  base := k + 1
  param_eq ty n h := if_neg (by omega)
  slot_succ n h := by
    rw [lower_of_lt (by omega), lower_of_lt (by omega)]
    omega

theorem Exchange.fill_param_self (k : Nat) (v : Value) (ty : Ty) :
    (fill k v).apply (.param ty k) = .constant ty v := if_pos rfl

theorem Exchange.fill_param_of_lt {k n : Nat} (h : n < k) (v : Value) (ty : Ty) :
    (fill k v).apply (.param ty n) = .param ty n := by
  rw [apply, Expr.substitute]
  show (if n = k then _ else _) = _
  rw [if_neg (Nat.ne_of_lt h), lower_of_le (Nat.le_of_lt h)]

namespace Slots

/-- The first slots have the value in the place of the parameter, and agree with the second ones in all other
slots of interest. -/
def Filled (k : Nat) (v : Value) (V : Nat → Prop) (s t : Slots) : Prop :=
  s[k]? = some v ∧ s.Agree (lower k) (fun n => V n ∧ n ≠ k) t

/-- Evaluation goes the same way with the value in the place of the parameter. -/
theorem tied_filled (cat : Catalog) (k : Nat) (v : Value) :
    Tied cat (Exchange.fill k v).toSubstitution (k < ·) (Filled k v) where
  param {V n} hn ty s t hst := by
    by_cases hnk : n = k
    · have hslot : s[n]? = some v := hnk ▸ hst.1
      have hparam : (Exchange.fill k v).param ty n = .constant ty v := if_pos hnk
      rw [Eval.exec_slot hslot, hparam, Catalog.eval]
      exact ⟨rfl, hst⟩
    · obtain ⟨w, hs, ht⟩ := hst.2.slot ⟨hn, hnk⟩
      have hparam : (Exchange.fill k v).param ty n = .param ty (lower k n) := if_neg hnk
      rw [hs, hparam, Catalog.eval, ht]
      exact ⟨rfl, hst⟩
  bind {V n s t} hn h w := by
    refine ⟨getElem?_bind_ne (Nat.ne_of_lt hn) h.1, fun m hm => ?_⟩
    by_cases hmn : m = n
    · rw [hmn]
      exact ⟨w, getElem?_bind_self s n w, getElem?_bind_self t (lower k n) w⟩
    · obtain ⟨u, hs, ht⟩ := h.2 m ⟨hm.1.resolve_right hmn, hm.2⟩
      exact ⟨u, getElem?_bind_ne hmn hs, getElem?_bind_ne (fun heq => hmn (lower_inj hm.2 hn heq)) ht⟩
  weaken h := ⟨h.1, fun m hm => h.2 m ⟨Or.inl hm.1, hm.2⟩⟩

end Slots

/-- An expression evaluates for a row that ends with a value as it does for the rest of the row, if the value
stands for the last parameter. -/
theorem Lambda.Disciplined.evalLambda_filled (cat : Catalog) {l : Lambda} (h : l.Disciplined) {params : List Param}
    (hparams : params.map (·.slot) = List.range params.length) (hlength : l.params.length = params.length + 1)
    {row : List Value} (hrow : row.length = params.length) (v : Value) (slots : Nat) :
    cat.evalLambda ⟨params, (Exchange.fill params.length v).apply l.body, slots⟩ row =
      cat.evalLambda l (row ++ [v]) := by
  have hrow' : (row ++ [v]).length = l.params.length := by
    rw [List.length_append, List.length_singleton, hrow, hlength]
  have hslot : ∀ n, n < l.params.length →
      (Slots.ofArguments l.slots l.params (row ++ [v]))[n]? = (row ++ [v])[n]? := fun n hn =>
    Slots.getElem?_ofArguments h.params hrow' l.slots (by omega)
  have hstart : (Slots.ofArguments l.slots l.params (row ++ [v])).Filled params.length v (· < l.params.length)
      (Slots.ofArguments slots params row) := by
    refine ⟨?_, fun n hn => ?_⟩
    · rw [hslot _ (by omega), ← hrow, List.getElem?_concat_length]
    · have hlt : n < row.length := by omega
      refine ⟨row[n], ?_, ?_⟩
      · rw [hslot n hn.1, List.getElem?_append_left hlt, List.getElem?_eq_getElem hlt]
      · rw [lower_of_le (by omega), Slots.getElem?_ofArguments hparams hrow slots hlt,
          List.getElem?_eq_getElem hlt]
  have hbinders : ∀ n ∈ l.body.binders, params.length < n := by
    intro n hn
    by_contra hle
    have hmem : n ∈ List.range l.params.length := List.mem_range.mpr (by omega)
    exact (List.nodup_append.mp h.binders).2.2 n hmem n hn rfl
  have hrun := cat.tied_eval (Slots.tied_filled cat params.length v) l.body h.free hbinders _ _ hstart
  rw [Catalog.evalLambda, Catalog.evalLambda, if_pos hrow, if_pos hrow']
  exact hrun.1.eq.symm

/-! ### Declared names -/

namespace Symbols

variable {symbols symbols' : Symbols}

/-- The order of different names does not matter for what they stand for. -/
theorem lookup_perm (h : symbols.Perm symbols') (hnodup : (symbols.map Prod.fst).Nodup) (name : String) :
    symbols.lookup name = symbols'.lookup name := by
  have hnodup' : (symbols'.map Prod.fst).Nodup := (h.map Prod.fst).nodup_iff.mp hnodup
  cases hname : symbols.lookup name with
  | some sym => exact (lookup_eq_some hnodup' (h.mem_iff.mp (mem_of_lookup hname))).symm
  | none =>
      cases hname' : symbols'.lookup name with
      | none => rfl
      | some sym =>
          have hsome := lookup_eq_some hnodup (h.mem_iff.mpr (mem_of_lookup hname'))
          rw [hname] at hsome
          cases hsome

theorem lookup_map (f : Symbol → Symbol) (symbols : Symbols) (name : String) :
    (symbols.map (Prod.map id f)).lookup name = (symbols.lookup name).map f := by
  induction symbols with
  | nil => rfl
  | cons entry symbols ih =>
      obtain ⟨key, sym⟩ := entry
      cases hname : name == key with
      | true => simp [List.lookup_cons, hname]
      | false => simp [List.lookup_cons, hname, ih]

/-- A value under its name. -/
def valued (entry : String × Value) : String × Symbol :=
  (entry.1, .expr (.constant entry.2.naturalType entry.2))

/-- Values under their names, in the order of the names. -/
def allValued (values : List (String × Value)) : List (String × Symbol) :=
  (values.mergeSort fun a b => a.1 ≤ b.1).map valued

/-- The names that arguments from a position on declare, unless there are named values before others. -/
def declared (position : Nat) : List Argument → Option (List (String × Symbol))
  | [] => some []
  | [.named values] => some (allValued values)
  | .named _ :: _ => none
  | arg :: args => (declared (position + 1) args).map (arg.symbols.map (("@" ++ toString position, ·)) ++ ·)

theorem insertAll_cons {entry : String × Symbol} {entries : List (String × Symbol)} :
    symbols.insertAll (entry :: entries) = .ok symbols' ↔
      ∃ between, symbols.insert entry.1 entry.2 = .ok between ∧ between.insertAll entries = .ok symbols' := by
  rw [insertAll, List.foldlM_cons, Typing.bind_eq_ok]
  rfl

theorem insertArguments_eq_ok {args : List Argument} {position : Nat} :
    symbols.insertArguments position args = .ok symbols' ↔
      ∃ entries, declared position args = some entries ∧ symbols.insertAll entries = .ok symbols' := by
  fun_induction insertArguments symbols position args with
  | case1 symbols position => simp [declared, insertAll, pure, Except.pure]
  | case2 symbols position values =>
      simp only [declared, allValued, Option.some.injEq, exists_eq_left', insertAll, List.foldlM_map]
      rfl
  | case3 symbols position values args hargs =>
      cases args with
      | nil => exact absurd rfl hargs
      | cons arg args => simp [declared]
  | case7 symbols position args rest values _ hnamed => exact absurd rfl (hnamed values)
  | case4 symbols position args name rest v _ _ ih
  | case5 symbols position args name rest v ty _ _ ih
  | case6 symbols position args name rest l _ _ ih =>
      rw [Typing.bind_eq_ok]
      constructor
      · rintro ⟨between, hinsert, hrest⟩
        obtain ⟨entries, hentries, hall⟩ := (ih between).mp hrest
        exact ⟨_, Option.map_eq_some_iff.mpr ⟨entries, hentries, rfl⟩,
          insertAll_cons.mpr ⟨between, hinsert, hall⟩⟩
      · rintro ⟨_, hdeclared, hall⟩
        obtain ⟨entries, hentries, rfl⟩ := Option.map_eq_some_iff.mp hdeclared
        obtain ⟨between, hinsert, hall⟩ := insertAll_cons.mp hall
        exact ⟨between, hinsert, (ih between).mpr ⟨entries, hentries, hall⟩⟩

/-- What is declared is brought by the arguments. -/
theorem forall_declared {P : Symbol → Prop} {args : List Argument} {position : Nat}
    {entries : List (String × Symbol)} (h : declared position args = some entries)
    (hargs : ∀ arg ∈ args, ∀ sym ∈ arg.symbols, P sym) : ∀ entry ∈ entries, P entry.2 := by
  fun_induction declared position args generalizing entries with
  | case1 position =>
      cases h
      exact List.forall_mem_nil _
  | case2 position values =>
      cases h
      intro entry hentry
      obtain ⟨value, hvalue, rfl⟩ := List.mem_map.mp hentry
      exact hargs _ List.mem_cons_self _ (List.mem_map_of_mem (List.mem_mergeSort.mp hvalue))
  | case3 => cases h
  | case4 position arg args _ _ ih =>
      obtain ⟨later, hlater, rfl⟩ := Option.map_eq_some_iff.mp h
      obtain ⟨harg, hargs⟩ := List.forall_mem_cons.mp hargs
      refine List.forall_mem_append.mpr ⟨?_, ih hlater hargs⟩
      intro entry hentry
      obtain ⟨sym, hsym, rfl⟩ := List.mem_map.mp hentry
      exact harg sym hsym

/-- Named values are declared after all other arguments, if there are none among those. -/
theorem declared_append (position : Nat) (others : List Argument) :
    ∃ o : Option (List (String × Symbol)), ∀ values, declared position (others ++ [.named values]) =
      o.map (· ++ allValued values) := by
  induction others generalizing position with
  | nil => exact ⟨some [], fun values => rfl⟩
  | cons arg others ih =>
      obtain ⟨o, ho⟩ := ih (position + 1)
      by_cases hnamed : ∃ values, arg = .named values
      · obtain ⟨values, rfl⟩ := hnamed
        refine ⟨none, fun values' => ?_⟩
        cases others <;> rfl
      · refine ⟨o.map (arg.symbols.map (("@" ++ toString position, ·)) ++ ·), fun values => ?_⟩
        rw [List.cons_append, declared, ho, Option.map_map, Option.map_map]
        · simp only [Function.comp_def, List.append_assoc]
        · exact fun values harg _ => hnamed ⟨values, harg⟩
        · exact fun values harg => hnamed ⟨values, harg⟩

/-- The names of a text are declared if they are all different. -/
theorem ofText_eq_ok {params : List Param} {args : List Argument} :
    ofText params args = .ok symbols ↔ ∃ entries, declared 0 args = some entries ∧
      (((params.filterMap binding? ++ entries).map folded).map Prod.fst).Nodup ∧
      symbols = (params.filterMap binding? ++ entries).map folded := by
  have hall : ofText params args = .ok symbols ↔ ∃ entries, declared 0 args = some entries ∧
      insertAll [] (params.filterMap binding? ++ entries) = .ok symbols := by
    rw [ofText, insertParams_eq_insertAll, Typing.bind_eq_ok]
    simp only [insertArguments_eq_ok, insertAll, List.foldlM_append, Typing.bind_eq_ok]
    constructor
    · rintro ⟨between, hparams, entries, hentries, hall⟩
      exact ⟨entries, hentries, between, hparams, hall⟩
    · rintro ⟨entries, hentries, between, hparams, hall⟩
      exact ⟨between, hparams, entries, hentries, hall⟩
  rw [hall]
  refine exists_congr fun entries => and_congr_right fun _ => ?_
  exact insertAll_eq_ok List.nodup_nil

/-- The names of parameters, what other arguments declare and named values. -/
def withNames (params : List Param) (entries : List (String × Symbol)) (values : List (String × Value)) : Symbols :=
  (params.filterMap binding? ++ (entries ++ allValued values)).map folded

theorem ofText_named (others : List Argument) : ∃ o : Option (List (String × Symbol)),
    (∀ entries ∈ o, ∀ entry ∈ entries, ∃ arg : Argument, entry.2 ∈ arg.symbols) ∧
    ∀ {params values symbols}, ofText params (others ++ [.named values]) = .ok symbols ↔
      ∃ entries ∈ o, ((withNames params entries values).map Prod.fst).Nodup ∧
        symbols = withNames params entries values := by
  obtain ⟨o, ho⟩ := declared_append 0 others
  refine ⟨o, fun entries hentries => ?_, ?_⟩
  · have hdeclared : declared 0 (others ++ [.named []]) = some (entries ++ allValued []) := by
      rw [ho, Option.mem_def.mp hentries]
      rfl
    have hall := forall_declared (P := fun sym => ∃ arg : Argument, sym ∈ arg.symbols) hdeclared
      fun arg _ sym hsym => ⟨arg, hsym⟩
    exact fun entry hentry => hall entry (List.mem_append_left _ hentry)
  · intro params values symbols
    rw [ofText_eq_ok]
    constructor
    · rintro ⟨_, hdeclared, hnodup, rfl⟩
      obtain ⟨entries, hentries, rfl⟩ := Option.map_eq_some_iff.mp ((ho values).symm.trans hdeclared)
      exact ⟨entries, hentries, hnodup, rfl⟩
    · rintro ⟨entries, hentries, hnodup, rfl⟩
      exact ⟨_, (ho values).trans (Option.map_eq_some_iff.mpr ⟨entries, hentries, rfl⟩), hnodup, rfl⟩

end Symbols

/-- What the arguments bring is not exchanged. -/
theorem Exchange.symbol_of_argument (x : Exchange) {arg : Argument} {sym : Symbol} (h : sym ∈ arg.symbols) :
    x.symbol sym = sym := by
  cases sym with
  | lambda l => rfl
  | expr e =>
      obtain ⟨ty, v, rfl⟩ := Argument.exists_constant h
      rw [symbol, apply, Expr.substitute]

namespace Environment

theorem bindParams_append (decls : List ParamDecl) (decl : ParamDecl) :
    bindParams (decls ++ [decl]) = bindParams decls ++ [⟨decl.name, decl.ty, decls.length⟩] := by
  simp [bindParams, List.zipIdx_append]

end Environment

namespace Symbols

open Environment (bindParams)

variable {decls : List ParamDecl} {others : List Argument} {before after : List (String × Value)} {x : String}
  {v : Value} {symbols : Symbols}

/-- What becomes of the names of parameters, with a value in the place of the last one. -/
theorem binding?_filled (decls : List ParamDecl) (x : String) (v : Value) :
    ((bindParams (decls ++ [⟨some x, v.naturalType⟩])).filterMap binding?).map
        (Prod.map id (Exchange.fill decls.length v).symbol) =
      (bindParams decls).filterMap binding? ++ [valued (x, v)] := by
  have hfixed : ∀ entry ∈ (bindParams decls).filterMap binding?,
      Prod.map id (Exchange.fill decls.length v).symbol entry = entry := by
    intro entry hentry
    obtain ⟨p, hp, hbinding⟩ := List.mem_filterMap.mp hentry
    obtain ⟨name, -, rfl⟩ := Option.map_eq_some_iff.mp hbinding
    have hslot : p.slot < decls.length := by
      have hmem := List.mem_map_of_mem (f := fun p : Param => p.slot) hp
      rw [Environment.bindParams_slots, Environment.length_bindParams] at hmem
      exact List.mem_range.mp hmem
    rw [Prod.map_apply, Exchange.symbol, Exchange.fill_param_of_lt hslot, id]
  rw [Environment.bindParams_append, List.filterMap_append, List.map_append, List.map_congr_left hfixed,
    List.map_id']
  refine congrArg _ ?_
  show [Prod.map id (Exchange.fill decls.length v).symbol (x, .expr (.param v.naturalType decls.length))] = _
  rw [Prod.map_apply, Exchange.symbol, Exchange.fill_param_self, valued, id]

/-- A value more under its name. -/
theorem perm_allValued (before after : List (String × Value)) (entry : String × Value) :
    (valued entry :: allValued (before ++ after)).Perm (allValued (before ++ entry :: after)) := by
  rw [allValued, ← List.map_cons]
  refine List.Perm.map valued (((List.mergeSort_perm _ _).cons entry).trans ?_)
  exact List.perm_middle.symm.trans (List.mergeSort_perm _ _).symm

/-- The names that are declared with a parameter and with a value of its name are the same, up to their
order. -/
theorem perm_filled (decls : List ParamDecl) {entries : List (String × Symbol)}
    (h : ∀ entry ∈ entries, (Exchange.fill decls.length v).symbol entry.2 = entry.2)
    (before after : List (String × Value)) (x : String) :
    ((withNames (bindParams (decls ++ [⟨some x, v.naturalType⟩])) entries (before ++ after)).map
        (Prod.map id (Exchange.fill decls.length v).symbol)).Perm
      (withNames (bindParams decls) entries (before ++ (x, v) :: after)) := by
  have hentries : ∀ entry ∈ entries, Prod.map id (Exchange.fill decls.length v).symbol entry = entry :=
    fun entry hentry => Prod.ext rfl (h entry hentry)
  have hvalued : ∀ entry ∈ allValued (before ++ after),
      Prod.map id (Exchange.fill decls.length v).symbol entry = entry := by
    intro entry hentry
    obtain ⟨value, -, rfl⟩ := List.mem_map.mp hentry
    rw [valued, Prod.map_apply, Exchange.symbol, Exchange.apply, Expr.substitute, id]
  have hfolded : Prod.map id (Exchange.fill decls.length v).symbol ∘ folded =
      folded ∘ Prod.map id (Exchange.fill decls.length v).symbol := rfl
  rw [withNames, List.map_map, hfolded, ← List.map_map]
  refine List.Perm.map folded ?_
  rw [List.map_append, List.map_append, binding?_filled, List.map_congr_left hentries,
    List.map_congr_left hvalued, List.map_id', List.map_id', List.append_assoc, List.singleton_append]
  refine List.Perm.append_left _ ?_
  exact List.perm_middle.symm.trans ((perm_allValued before after (x, v)).append_left entries)

/-- Either the names can be declared, both with a parameter and with a value of its name, and the value stands
for the parameter, or they can be declared with neither. -/
theorem ofText_filled (decls : List ParamDecl) (others : List Argument) (before after : List (String × Value))
    (x : String) (v : Value) :
    (∃ symbols symbols', ofText (bindParams (decls ++ [ParamDecl.mk (some x) v.naturalType]))
          (others ++ [Argument.named (before ++ after)]) = .ok symbols ∧
        ofText (bindParams decls) (others ++ [Argument.named (before ++ (x, v) :: after)]) = .ok symbols' ∧
        ∀ name, symbols'.lookup name = (symbols.lookup name).map (Exchange.fill decls.length v).symbol) ∨
      ∃ fault fault', ofText (bindParams (decls ++ [ParamDecl.mk (some x) v.naturalType]))
          (others ++ [Argument.named (before ++ after)]) = .error fault ∧
        ofText (bindParams decls) (others ++ [Argument.named (before ++ (x, v) :: after)]) = .error fault' := by
  obtain ⟨o, hsymbols, hok⟩ := ofText_named others
  have hfixed : ∀ entries ∈ o, ∀ entry ∈ entries,
      (Exchange.fill decls.length v).symbol entry.2 = entry.2 := fun entries hentries entry hentry => by
    obtain ⟨arg, harg⟩ := hsymbols entries hentries entry hentry
    exact Exchange.symbol_of_argument _ harg
  have hperm := fun entries hentries => perm_filled decls (hfixed entries hentries) before after x
  have hkeys : ∀ entries ∈ o,
      ((withNames (bindParams (decls ++ [ParamDecl.mk (some x) v.naturalType])) entries (before ++ after)).map
          Prod.fst).Nodup ↔
        ((withNames (bindParams decls) entries (before ++ (x, v) :: after)).map Prod.fst).Nodup := by
    intro entries hentries
    rw [← ((hperm entries hentries).map Prod.fst).nodup_iff, List.map_map]
    rfl
  cases hfirst : ofText (bindParams (decls ++ [ParamDecl.mk (some x) v.naturalType]))
      (others ++ [Argument.named (before ++ after)]) with
  | ok symbols =>
      obtain ⟨entries, hentries, hnodup, rfl⟩ := hok.mp hfirst
      have hnodup' := (hkeys entries hentries).mp hnodup
      refine .inl ⟨_, _, rfl, hok.mpr ⟨entries, hentries, hnodup', rfl⟩, fun name => ?_⟩
      rw [← lookup_map]
      exact lookup_perm (hperm entries hentries).symm hnodup' name
  | error fault =>
      cases hsecond : ofText (bindParams decls) (others ++ [Argument.named (before ++ (x, v) :: after)]) with
      | ok symbols' =>
          obtain ⟨entries, hentries, hnodup, rfl⟩ := hok.mp hsecond
          rw [hok.mpr ⟨entries, hentries, (hkeys entries hentries).mpr hnodup, rfl⟩] at hfirst
          cases hfirst
      | error fault' => exact .inr ⟨fault, fault', rfl, rfl⟩

end Symbols

namespace Environment

theorem implicit?_of_named {decls : List ParamDecl} (h : ∀ p ∈ decls, p.name.isSome) :
    implicit? (bindParams decls) = none := by
  unfold implicit?
  split
  · rename_i ty slot hparams
    have hnames := map_bindParams (fun name _ => name) decls
    rw [hparams] at hnames
    have hnone : none ∈ decls.map (·.name) := by
      rw [← hnames]
      exact List.mem_singleton_self none
    obtain ⟨decl, hdecl, hname⟩ := List.mem_map.mp hnone
    have hsome := h decl hdecl
    rw [hname] at hsome
    cases hsome
  · rfl

variable {decls : List ParamDecl} {args args' : List Argument} {symbols symbols' : Symbols} {x : String} {v : Value}

/-- The scopes of a text in which a name stands for a parameter and for a value. -/
theorem scopes_filled (env : Environment) (h : ∀ p ∈ decls, p.name.isSome)
    (hlookup : ∀ name, symbols'.lookup name = (symbols.lookup name).map (Exchange.fill decls.length v).symbol) :
    (Exchange.fill decls.length v).Scopes
      (env.scope (bindParams (decls ++ [⟨some x, v.naturalType⟩])) symbols)
      (env.scope (bindParams decls) symbols') where
  catalog := rfl
  context := rfl
  symbols := hlookup
  it := by
    have hnamed : ∀ p ∈ decls ++ [⟨some x, v.naturalType⟩], p.name.isSome :=
      List.forall_mem_append.mpr ⟨h, List.forall_mem_singleton.mpr rfl⟩
    rw [scope, scope, implicit?_of_named h, implicit?_of_named hnamed]
    rfl

theorem start_filled (decls : List ParamDecl) (x : String) (v : Value) (text : String) (shapes : Shapes) :
    (Exchange.fill decls.length v).Alike (start (bindParams (decls ++ [⟨some x, v.naturalType⟩])) text shapes)
      (start (bindParams decls) text shapes) where
  token := ⟨rfl, fun _ => rfl, fun _ => rfl⟩
  rest := respells_of_lexemes rfl
  stop := .refl _
  base := by
    show decls.length + 1 ≤ (bindParams (decls ++ [_])).length
    rw [length_bindParams, List.length_append, List.length_singleton]
  slots := by
    show (bindParams decls).length = lower decls.length (bindParams (decls ++ [_])).length
    rw [length_bindParams, length_bindParams, List.length_append, List.length_singleton, lower_of_lt (by omega)]
    rfl
  shapes := rfl

/-- A text in which a name stands for a value compiles to what the text compiles to in which it stands for a
parameter, with the value for the parameter. -/
theorem compile_filled (env : Environment) (h : ∀ p ∈ decls, p.name.isSome) (result : Option Ty) (text : String)
    (others : List Argument) (before after : List (String × Value)) (x : String) (v : Value) (shapes : Shapes)
    {filled : Lambda} :
    ((env.compile decls result text (others ++ [Argument.named (before ++ (x, v) :: after)])).exec shapes).1 =
        .ok filled ↔
      ∃ l, ((env.compile (decls ++ [ParamDecl.mk (some x) v.naturalType]) result text
          (others ++ [Argument.named (before ++ after)])).exec shapes).1 = .ok l ∧
        filled = ⟨bindParams decls, (Exchange.fill decls.length v).apply l.body, lower decls.length l.slots⟩ := by
  rcases Symbols.ofText_filled decls others before after x v with
    ⟨symbols, symbols', hsymbols, hsymbols', hlookup⟩ | ⟨fault, fault', hfault, hfault'⟩
  · exact (env.compile_exchanged result hsymbols hsymbols' (env.scopes_filled h hlookup)
      (start_filled decls x v text shapes)).1.eq_ok_iff
  · rw [compile_of_symbols hfault, compile_of_symbols hfault']
    simp

end Environment

/-- A name that an argument gives a value to behaves as a parameter of the type of the value would: the text
compiles with the one if it compiles with the other, to expressions of the same type, and evaluation for a row
comes to what it comes to for the row with the value at its end. -/
theorem Environment.compile_named_value (env : Environment) (decls : List ParamDecl)
    (h : ∀ p ∈ decls, p.name.isSome) (result : Option Ty) (text : String) (others : List Argument)
    (before after : List (String × Value)) (x : String) (v : Value) (shapes : Shapes) :
    let supplied :=
      ((env.compile decls result text (others ++ [.named (before ++ (x, v) :: after)])).exec shapes).1
    let declared := ((env.compile (decls ++ [⟨some x, v.naturalType⟩]) result text
      (others ++ [.named (before ++ after)])).exec shapes).1
    ((∃ l, supplied = .ok l) ↔ ∃ l, declared = .ok l) ∧
      ∀ l l', supplied = .ok l → declared = .ok l' → l.body.ty = l'.body.ty ∧
        ∀ row : List Value, row.length = decls.length →
          env.catalog.evalLambda l row = env.catalog.evalLambda l' (row ++ [v]) := by
  intro supplied declared
  have hfilled : ∀ {filled}, supplied = .ok filled ↔ _ :=
    env.compile_filled h result text others before after x v shapes
  constructor
  · constructor
    · rintro ⟨l, hl⟩
      obtain ⟨l', hl', -⟩ := hfilled.mp hl
      exact ⟨l', hl'⟩
    · rintro ⟨l', hl'⟩
      exact ⟨_, hfilled.mpr ⟨l', hl', rfl⟩⟩
  · intro l l' hl hl'
    obtain ⟨_, hl'', rfl⟩ := hfilled.mp hl
    obtain rfl := Except.ok.inj (hl'.symm.trans hl'')
    have hcompiles : env.Compiles _ result text _ l' := ⟨shapes, hl'⟩
    refine ⟨Expr.ty_substitute _, fun row hrow => ?_⟩
    have hlength : l'.params.length = (bindParams decls).length + 1 := by
      rw [hcompiles.derives.1, length_bindParams, length_bindParams, List.length_append, List.length_singleton]
    rw [← length_bindParams decls] at hrow ⊢
    exact hcompiles.disciplined.evalLambda_filled env.catalog (bindParams_slots decls) hlength hrow v _

/-- The limit is used inside of an aggregate, whose slot is one less where the limit is a value, and after it. -/
theorem Environment.compile_named_value_limit :
    let env : Environment := ⟨.empty, .empty⟩
    let text := "xs.Count(it * @0 > Limit) + limit - low"
    let others : List Argument := [.value (.int32 10)]
    ∃ l l', env.Compiles [⟨some "xs", .list .int32⟩] none text
        (others ++ [.named [("limit", .int32 25), ("low", .int32 7)]]) l ∧
      env.Compiles [⟨some "xs", .list .int32⟩, ⟨some "limit", .int32⟩] none text
        (others ++ [.named [("low", .int32 7)]]) l' ∧
      l.body.ty = l'.body.ty ∧ l'.body.binders = [2] ∧
      ∀ row : Value, env.catalog.evalLambda l [row] = env.catalog.evalLambda l' [row, .int32 25] := by
  intro env text others
  have hrun : ((env.compile [⟨some "xs", .list .int32⟩, ⟨some "limit", .int32⟩] none text
      (others ++ [.named [("low", .int32 7)]])).exec .empty).1.toOption.any (fun l => l.body.binders = [2]) =
        true := by
    decide +kernel
  obtain ⟨l', hl', hbinders⟩ := toOption_any.mp hrun
  obtain ⟨hiff, heval⟩ := env.compile_named_value [⟨some "xs", .list .int32⟩] (by decide) none text others []
    [("low", .int32 7)] "limit" (.int32 25) .empty
  obtain ⟨l, hl⟩ := hiff.mpr ⟨l', hl'⟩
  obtain ⟨hty, hrows⟩ := heval l l' hl hl'
  exact ⟨l, l', ⟨_, hl⟩, ⟨_, hl'⟩, hty, of_decide_eq_true hbinders, fun row => hrows [row] rfl⟩

end RowQuery
