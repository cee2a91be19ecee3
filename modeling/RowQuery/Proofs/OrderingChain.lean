import RowQuery.Proofs.StableOrder

/-!
Orderings one after the other. Texts that compile as orderings also compile as one, with commas between them;
the keys keep their values and directions, only their slots move. Ordering by all keys at once is ordering by
the last ones first and by the first ones last, since each step keeps equal rows as the step before left them.
-/

namespace RowQuery

open Parse Grammar Lexeme

/-! ### One stable sort after another -/

namespace IsStableSort

variable {α : Type} {major minor : α → α → Ordering} {xs ys zs : List α}

/-- Sorting by the minor order and then by the major one is sorting by both. -/
theorem followed [Std.ReflCmp major] (h : IsStableSort minor xs ys) (h' : IsStableSort major ys zs) :
    IsStableSort (fun a b => (major a b).then (minor a b)) xs zs where
  perm := h'.perm.trans h.perm
  ordered := by
    refine List.pairwise_iff_forall_sublist.mpr fun {a b} hab hgt => ?_
    rcases Ordering.then_eq_gt.mp hgt with hmajor | ⟨hmajor, hminor⟩
    · exact List.pairwise_iff_forall_sublist.mp h'.ordered hab hmajor
    -- Elements of one class of the major order stand as the minor order has put them.
    · have hself : major a a = .eq := Std.ReflCmp.compare_self
      have ha : a ∈ ys := h'.perm.mem_iff.mp (hab.subset List.mem_cons_self)
      have hclass : [a, b].Sublist (ys.filter fun c => major a c = .eq) := by
        have hfiltered := hab.filter fun c => major a c = .eq
        rw [h'.stable a ha] at hfiltered
        simpa [hself, hmajor] using hfiltered
      exact List.pairwise_iff_forall_sublist.mp h.ordered (hclass.trans List.filter_sublist) hminor
  stable a ha := by
    have hboth : ∀ cs : List α, (cs.filter fun b => (major a b).then (minor a b) = .eq) =
        (cs.filter fun b => major a b = .eq).filter fun b => minor a b = .eq := by
      intro cs
      rw [List.filter_filter]
      exact List.filter_congr fun b _ => by simp [Ordering.then_eq_eq, Bool.and_comm]
    have hcomm : ∀ cs : List α, ((cs.filter fun b => major a b = .eq).filter fun b => minor a b = .eq) =
        (cs.filter fun b => minor a b = .eq).filter fun b => major a b = .eq := by
      intro cs
      simp only [List.filter_filter, Bool.and_comm]
    rw [hboth, h'.stable a (h.perm.mem_iff.mpr ha), hcomm, h.stable a ha, ← hcomm, hboth]

end IsStableSort

/-! ### Keys -/

namespace Query

variable {cat : Catalog} {keys keys' later : List SortKey} {a b : Value} {rows rows' : List Value}

theorem rowOrder_append (cmp : Value → Value → Ordering) (keys later : List SortKey) (a b : Value) :
    rowOrder cat cmp (keys ++ later) a b = (rowOrder cat cmp keys a b).then (rowOrder cat cmp later a b) := by
  induction keys with
  | nil => rfl
  | cons key keys ih =>
      rw [List.cons_append, rowOrder, rowOrder, ih, Ordering.then_assoc]

theorem Sortable.append (h : Sortable cat keys rows) (h' : Sortable cat later rows) :
    Sortable cat (keys ++ later) rows where
  evaluates key hkey := (List.mem_append.mp hkey).elim (h.evaluates key) (h'.evaluates key)
  comparable key hkey := (List.mem_append.mp hkey).elim (h.comparable key) (h'.comparable key)

theorem Sortable.perm (h : Sortable cat keys rows) (hperm : rows'.Perm rows) : Sortable cat keys rows' where
  evaluates key hkey row hrow := h.evaluates key hkey row (hperm.mem_iff.mp hrow)
  comparable key hkey := (hperm.pairwise_iff Value.exists_compare_comm).mpr (h.comparable key hkey)

/-- Keys of the same directions that have the same values for each row. -/
def SameKeys (cat : Catalog) : List SortKey → List SortKey → Prop :=
  List.Forall₂ fun key key' => key.ascending = key'.ascending ∧
    ∀ row, cat.evalLambda key.selector [row] = cat.evalLambda key'.selector [row]

theorem SameKeys.rowOrder_eq (h : SameKeys cat keys keys') (cmp : Value → Value → Ordering) :
    rowOrder cat cmp keys = rowOrder cat cmp keys' := by
  funext a b
  induction h with
  | nil => rfl
  | cons hkey _ ih =>
      rw [rowOrder, rowOrder, ih, keyValue, keyValue, keyValue, keyValue, hkey.1, hkey.2 a, hkey.2 b]

theorem SameKeys.sortable (h : SameKeys cat keys keys') (hrows : Sortable cat keys rows) :
    Sortable cat keys' rows := by
  have hback : ∀ key' ∈ keys', ∃ key ∈ keys, ∀ row,
      cat.evalLambda key.selector [row] = cat.evalLambda key'.selector [row] := by
    clear hrows
    induction h with
    | nil => exact fun _ hkey' => absurd hkey' List.not_mem_nil
    | cons hkey _ ih =>
        intro key' hkey'
        rcases List.mem_cons.mp hkey' with rfl | hkey'
        · exact ⟨_, List.mem_cons_self, hkey.2⟩
        · obtain ⟨key, hmem, hsame⟩ := ih key' hkey'
          exact ⟨key, List.mem_cons_of_mem _ hmem, hsame⟩
  refine ⟨fun key' hkey' row hrow => ?_, fun key' hkey' => ?_⟩
  · obtain ⟨key, hkey, hsame⟩ := hback key' hkey'
    rw [← hsame row]
    exact hrows.evaluates key hkey row hrow
  · obtain ⟨key, hkey, hsame⟩ := hback key' hkey'
    have hvalue : keyValue cat key' = keyValue cat key := by
      funext row
      rw [keyValue, keyValue, hsame row]
    rw [hvalue]
    exact hrows.comparable key hkey

end Query

/-- An expression whose slots other than those of the arguments were renamed apart evaluates as before. -/
theorem Lambda.Disciplined.evalLambda_renamed (cat : Catalog) {l : Lambda} (h : l.Disciplined) {f : Nat → Nat}
    (hf : Function.Injective f) (hfix : ∀ n, n < l.params.length → f n = n) (slots : Nat) {row : List Value}
    (hrow : row.length = l.params.length) :
    cat.evalLambda ⟨l.params, l.body.mapSlots f, slots⟩ row = cat.evalLambda l row := by
  have hstart : (Slots.ofArguments slots l.params row).StartWith row :=
    fun i hi => Slots.getElem?_ofArguments h.params hrow slots hi
  rw [← (h.exec_renamed cat hf hfix hrow hstart).1, Catalog.evalLambda, if_pos hrow]
  rfl

/-! ### Texts -/

theorem Grammar.ReadsKeys.slots_le {scope : Scope} {s s' : Reading} {xs : List (Expr × Bool)}
    (h : ReadsKeys scope s xs s') : s.slots ≤ s'.slots := by
  have hkey : ∀ {s s' x}, Reads key scope s x s' → s.slots ≤ s'.slots := by
    intro s s' x h
    simp only [key, reads_bind, reads_pure] at h
    obtain ⟨e, m, he, _, _, hdirection, rfl, rfl⟩ := h
    rw [(direction_reads hdirection).1]
    exact ((level_derived maxDepth).expression he).1.le
  induction h with
  | last h => exact hkey h
  | next h _ hadvance _ ih =>
      rw [(reads_advance hadvance).1] at ih
      exact (hkey h).trans ih

namespace Environment

variable {env : Environment} {params : List Param} {args : List Argument} {a b : String}

/-- Keys of two texts with a comma between them: those of the second one have their slots after those of the
first one. -/
theorem ReadsText.listed {xs ys : List (Expr × Bool)} {slots slots' : Nat} {made made' : Shapes}
    (hparams : params.map (·.slot) = List.range params.length)
    (h : env.ReadsText params args a ReadsKeys made xs slots)
    (h' : env.ReadsText params args b ReadsKeys made' ys slots') (shapes : Shapes) :
    ∃ shift total, env.ReadsText params args (a ++ ", " ++ b) ReadsKeys shapes
      (xs ++ ys.map (mapKey (raise params.length shift))) total := by
  have hid : ∀ xs, List.map (mapKey id) xs = xs := fun xs => by rw [mapKey_id, List.map_id]
  have hle : params.length ≤ slots := h.le_slots ReadsKeys.slots_le
  obtain ⟨symbols, ls, grow, hsymbols, hscans, hembeds⟩ := h.embeds hid hparams keys_portable keys_portable .nil
  obtain ⟨symbols', ms, grow', hsymbols', hscans', hembeds'⟩ :=
    h'.embeds hid hparams keys_portable keys_portable .nil
  obtain rfl : symbols = symbols' := Except.ok.inj (hsymbols.symm.trans hsymbols')
  obtain ⟨s, hadvance, hs, hmade⟩ := (hscans.listed hscans').begins (env.scope params symbols) params shapes
  have hslots : s.slots = params.length := congrArg Prod.fst hmade
  have hends : Closes (comma :: ms) := .of_first (show .comma ∈ ends by decide)
  obtain ⟨t, hfirst, ht, htslots, -⟩ := hembeds hs (Nat.le_of_eq hslots.symm) hends
    (.of_first (.of_comma rfl) (show TokenKind.comma ≠ .identifier by decide))
  obtain ⟨u, hskip, hu, humade⟩ := exists_advance (env.scope params symbols) ht.rest ht.finished
  have huslots : u.slots = slots := by
    have hsame : u.slots = t.slots := congrArg Prod.fst humade
    rw [hsame, htslots, hslots, Nat.sub_self, Nat.add_zero]
  have hu : u.Ahead (ms ++ []) := by rwa [List.append_nil]
  obtain ⟨v, hsecond, hv, hvslots, -⟩ := hembeds' hu (by rwa [huslots]) (.of_first (by decide)) .nil
  rw [hslots, Nat.sub_self, raise_zero, hid] at hfirst
  exact ⟨_, v.slots, symbols, hsymbols, s, v, hadvance, hfirst.append (kind_of_shows ht.shows) hskip hsecond,
    kind_of_shows hv.shows, rfl⟩

/-- Keys in other slots have the same values. -/
theorem sameKeys_renamed (cat : Catalog) {element : Ty} {slots : Nat} (total : Nat) {xs : List (Expr × Bool)}
    (hkeys : ∀ key ∈ sortKeys element slots xs, key.selector.Disciplined) {f : Nat → Nat}
    (hf : Function.Injective f) (hfix : f 0 = 0) :
    Query.SameKeys cat (sortKeys element slots xs) (sortKeys element total (xs.map (mapKey f))) := by
  refine List.forall₂_map_left_iff.mpr (List.forall₂_map_right_iff.mpr (List.forall₂_map_right_iff.mpr ?_))
  refine List.forall₂_same.mpr fun x hx => ⟨rfl, fun row => ?_⟩
  have hdisciplined := hkeys _ (List.mem_map_of_mem hx)
  have hfix : ∀ n, n < 1 → f n = n := fun n hn => by rw [Nat.lt_one_iff.mp hn, hfix]
  have hrow : [row].length = 1 := rfl
  exact (hdisciplined.evalLambda_renamed cat hf hfix total hrow).symm

/-- Two texts that compile as orderings compile as one, and the keys keep their values. -/
theorem CompilesOrdering.listed {element : Ty} {keys later : List SortKey}
    (h : env.CompilesOrdering element a args keys) (h' : env.CompilesOrdering element b args later) :
    ∃ keys' later', env.CompilesOrdering element (a ++ ", " ++ b) args (keys' ++ later') ∧
      Query.SameKeys env.catalog keys keys' ∧ Query.SameKeys env.catalog later later' := by
  have hkeys := h.disciplined
  have hlater := h'.disciplined
  obtain ⟨made, h⟩ := h
  obtain ⟨made', h'⟩ := h'
  obtain ⟨xs, slots, htext, rfl⟩ := Environment.compileOrdering_eq_ok.mp h
  obtain ⟨ys, slots', htext', rfl⟩ := Environment.compileOrdering_eq_ok.mp h'
  obtain ⟨shift, total, hlisted⟩ := htext.listed (bindParams_slots _) htext' .empty
  have hfirst := sameKeys_renamed env.catalog total hkeys Function.injective_id rfl
  rw [mapKey_id, List.map_id] at hfirst
  refine ⟨_, _, ⟨.empty, Environment.compileOrdering_eq_ok.mpr ⟨_, total, hlisted, ?_⟩⟩, hfirst,
    sameKeys_renamed env.catalog total hlater (raise_injective 1 shift) rfl⟩
  exact List.map_append.symm

end Environment

/-! ### Steps -/

namespace Query

variable {env : Environment} {q : Query} {args : List Argument} {texts : List String}

/-- Orders by one text after the other, by the last one first. -/
def orderByEach (env : Environment) (q : Query) (texts : List String) (args : List Argument) : Step Query :=
  texts.foldrM (fun text q => orderBy env q text args) q

/-- Texts that compile as orderings of rows that can be sorted: as one, they compile and sort as they do one
after the other. -/
theorem exists_listed (htexts : texts ≠ [])
    (h : ∀ text ∈ texts, ∃ keys, env.CompilesOrdering q.element text args keys ∧ Sortable env.catalog keys q.rows) :
    ∃ keys, env.CompilesOrdering q.element (String.intercalate ", " texts) args keys ∧
      Sortable env.catalog keys q.rows ∧ ∀ shapes, ∃ out made,
        (q.orderByEach env texts args).exec shapes = (.ok ⟨q.element, out⟩, made) ∧
        IsStableSort (rowOrder env.catalog Value.order keys) q.rows out := by
  induction texts with
  | nil => exact absurd rfl htexts
  | cons text texts ih =>
      obtain ⟨keys, hcompiles, hsortable⟩ := h text List.mem_cons_self
      have hstep : ∀ {rows : List Value}, rows.Perm q.rows → ∀ shapes, ∃ out made,
          (orderBy env ⟨q.element, rows⟩ text args).exec shapes = (.ok ⟨q.element, out⟩, made) ∧
          IsStableSort (rowOrder env.catalog Value.order keys) rows out := by
        intro rows hperm shapes
        have hrows := hsortable.perm hperm
        obtain ⟨out, hsorted, hstable⟩ := hrows.sorted_eq_ok
        have hexec := exec_orderBy (q := ⟨q.element, rows⟩) hcompiles shapes
        rw [hsorted] at hexec
        obtain ⟨made, hexec⟩ := Shaping.exec_fst_eq_ok.mp hexec
        exact ⟨out, made, hexec, hrows.isStableSort_iff.mp hstable⟩
      rcases texts with - | ⟨next, texts⟩
      · refine ⟨keys, by rwa [String.intercalate_singleton], hsortable, fun shapes => ?_⟩
        obtain ⟨out, made, hexec, hstable⟩ := hstep (.refl _) shapes
        refine ⟨out, made, ?_, hstable⟩
        rw [orderByEach, List.foldrM_cons, List.foldrM_nil, pure_bind]
        exact hexec
      · obtain ⟨later, hcompiles', hsortable', hchain⟩ :=
          ih (by simp) fun text htext => h text (List.mem_cons_of_mem _ htext)
        obtain ⟨keys', later', hlisted, hsame, hsame'⟩ := hcompiles.listed hcompiles'
        refine ⟨keys' ++ later', by rwa [String.intercalate_cons_cons],
          (hsame.sortable hsortable).append (hsame'.sortable hsortable'), fun shapes => ?_⟩
        obtain ⟨between, made, hfirst, hbetween⟩ := hchain shapes
        obtain ⟨out, made', hsecond, hout⟩ := hstep hbetween.perm made
        refine ⟨out, made', ?_, ?_⟩
        · rw [orderByEach, List.foldrM_cons]
          exact Shaping.exec_bind_eq_ok.mpr ⟨_, made, hfirst, hsecond⟩
        · have hboth := hbetween.followed hout
          rw [hsame.rowOrder_eq, hsame'.rowOrder_eq] at hboth
          simpa only [← rowOrder_append] using hboth

/-- Ordering by all keys of a list is ordering by the last one first and by the first one last. -/
theorem orderBy_listed (htexts : texts ≠ [])
    (h : ∀ text ∈ texts, ∃ keys, env.CompilesOrdering q.element text args keys ∧ Sortable env.catalog keys q.rows) :
    (∃ keys, env.CompilesOrdering q.element (String.intercalate ", " texts) args keys) ∧
      ∀ shapes shapes', ∃ out,
        ((q.orderBy env (String.intercalate ", " texts) args).exec shapes).1 = .ok ⟨q.element, out⟩ ∧
        ((q.orderByEach env texts args).exec shapes').1 = .ok ⟨q.element, out⟩ := by
  obtain ⟨keys, hcompiles, hsortable, hchain⟩ := exists_listed htexts h
  refine ⟨⟨keys, hcompiles⟩, fun shapes shapes' => ?_⟩
  obtain ⟨out, made, hsteps, hstable⟩ := hchain shapes'
  obtain ⟨out', hsorted, hstable'⟩ := hsortable.sorted_eq_ok
  obtain rfl : out' = out := (hsortable.isStableSort_iff.mp hstable').unique hstable
  refine ⟨out', ?_, congrArg Prod.fst hsteps⟩
  rw [exec_orderBy hcompiles, hsorted]
  rfl

/-- Cells by three keys, the first of which goes backward. -/
theorem orderBy_listed_cells :
    let q : Query := ⟨.cls .cell, [12, 3, 5, 2, 13].map fun n => .object .cell [.int32 n] []⟩
    let args : List Argument := [.value (.int32 10)]
    let texts := ["X % @0 desc", "X > @0", "X ascending"]
    (∀ text ∈ texts, ∃ keys, Environment.cells.CompilesOrdering q.element text args keys ∧
      Sortable Catalog.cells keys q.rows) ∧
    (∃ keys, Environment.cells.CompilesOrdering q.element "X % @0 desc, X > @0, X ascending" args keys) ∧
    ∀ shapes shapes', ∃ out,
      ((q.orderBy .cells "X % @0 desc, X > @0, X ascending" args).exec shapes).1 = .ok ⟨q.element, out⟩ ∧
      ((q.orderByEach .cells texts args).exec shapes').1 = .ok ⟨q.element, out⟩ := by
  intro q args texts
  have h : ∀ text ∈ texts, ∃ keys, Environment.cells.CompilesOrdering q.element text args keys ∧
      Sortable Catalog.cells keys q.rows := by
    refine List.forall_mem_cons.mpr ⟨exists_compilesOrdering (by decide +kernel), ?_⟩
    refine List.forall_mem_cons.mpr ⟨exists_compilesOrdering (by decide +kernel), ?_⟩
    exact List.forall_mem_singleton.mpr (exists_compilesOrdering (by decide +kernel))
  exact ⟨h, orderBy_listed (List.cons_ne_nil _ _) h⟩

end Query

end RowQuery
