import Mathlib.Data.List.Sort
import RowQuery.Proofs.QuerySteps
import RowQuery.Proofs.Soundness
import RowQuery.Proofs.ValueOrder

/-!
Ordering rows by keys is a stable sort. Rows are compared key by key, each key forward or backward, which is
a total preorder since the order of values is one. Rows are put one after the other behind those that do
not come after them, and there is only one list of the rows that is in order and keeps equal rows as they
stood.
-/

namespace RowQuery

/-! ### Stable sorts -/

section

variable {α : Type} {cmp : α → α → Ordering} {xs ys zs : List α}

/-- A list in order that keeps what compares as equal as it stood. -/
structure IsStableSort (cmp : α → α → Ordering) (xs ys : List α) : Prop where
  perm : ys.Perm xs
  ordered : ys.Pairwise fun a b => cmp a b ≠ .gt
  stable : ∀ a ∈ xs, (ys.filter fun b => cmp a b = .eq) = xs.filter fun b => cmp a b = .eq

namespace IsStableSort

/-- Only the order among the elements counts. -/
theorem congr {cmp' : α → α → Ordering} (hcmp : ∀ a ∈ xs, ∀ b ∈ xs, cmp a b = cmp' a b)
    (h : IsStableSort cmp xs ys) : IsStableSort cmp' xs ys where
  perm := h.perm
  ordered := by
    refine h.ordered.imp_of_mem fun {a b} ha hb hle => ?_
    rwa [← hcmp a (h.perm.mem_iff.mp ha) b (h.perm.mem_iff.mp hb)]
  stable a ha := by
    have hys : (ys.filter fun b => cmp' a b = .eq) = ys.filter fun b => cmp a b = .eq :=
      List.filter_congr fun b hb => by rw [hcmp a ha b (h.perm.mem_iff.mp hb)]
    have hxs : (xs.filter fun b => cmp' a b = .eq) = xs.filter fun b => cmp a b = .eq :=
      List.filter_congr fun b hb => by rw [hcmp a ha b hb]
    rw [hys, hxs, h.stable a ha]

variable [Std.TransCmp cmp]

/-- Lists in order that agree on each class of equal elements are the same. -/
theorem eq_of_filter (hperm : xs.Perm ys) (hxs : xs.Pairwise fun a b => cmp a b ≠ .gt)
    (hys : ys.Pairwise fun a b => cmp a b ≠ .gt)
    (hclass : ∀ a ∈ xs, (xs.filter fun b => cmp a b = .eq) = ys.filter fun b => cmp a b = .eq) : xs = ys := by
  induction xs generalizing ys with
  | nil => exact (List.nil_perm.mp hperm).symm
  | cons x xs ih =>
      cases ys with
      | nil => exact absurd (hperm.length_eq) (by simp)
      | cons y ys =>
          have hself : ∀ a, cmp a a = .eq := fun a => Std.ReflCmp.compare_self
          have hle : ∀ {a b : α} {bs : List α}, ((a :: bs).Pairwise fun a b => cmp a b ≠ .gt) →
              b ∈ a :: bs → cmp a b ≠ .gt := by
            intro a b bs hbs hb
            rcases List.mem_cons.mp hb with rfl | hb
            · rw [hself]
              decide
            · exact (List.pairwise_cons.mp hbs).1 b hb
          -- The heads come before each other, so they are of one class, of which each is the first.
          have hxy : cmp x y ≠ .gt := hle hxs (hperm.mem_iff.mpr List.mem_cons_self)
          have hyx : cmp y x ≠ .gt := hle hys (hperm.mem_iff.mp List.mem_cons_self)
          have heq : cmp x y = .eq := by
            cases hcmp : cmp x y with
            | eq => rfl
            | gt => exact absurd hcmp hxy
            | lt => exact absurd (Std.OrientedCmp.gt_of_lt hcmp) hyx
          have hheads := hclass x List.mem_cons_self
          rw [List.filter_cons_of_pos (by simp [hself]), List.filter_cons_of_pos (by simp [heq])] at hheads
          obtain ⟨rfl, -⟩ := List.cons.inj hheads
          congr 1
          refine ih hperm.cons_inv (List.pairwise_cons.mp hxs).2 (List.pairwise_cons.mp hys).2 ?_
          intro a ha
          have htails := hclass a (List.mem_cons_of_mem _ ha)
          by_cases hax : cmp a x = .eq
          · rw [List.filter_cons_of_pos (by simp [hax]), List.filter_cons_of_pos (by simp [hax])] at htails
            exact (List.cons.inj htails).2
          · rwa [List.filter_cons_of_neg (by simp [hax]), List.filter_cons_of_neg (by simp [hax])] at htails

/-- There is one stable sort of a list. -/
theorem unique (hys : IsStableSort cmp xs ys) (hzs : IsStableSort cmp xs zs) : ys = zs :=
  eq_of_filter (hys.perm.trans hzs.perm.symm) hys.ordered hzs.ordered fun a ha =>
    have ha : a ∈ xs := hys.perm.mem_iff.mp ha
    (hys.stable a ha).trans (hzs.stable a ha).symm

/-- An element put in front of those that it does not come before, which are no less than what follows. -/
theorem filter_orderedInsert (a x : α) (back : List α) :
    (back.orderedInsert (fun x y => cmp x y ≠ .lt) x |>.filter fun b => cmp a b = .eq) =
      (x :: back).filter fun b => cmp a b = .eq := by
  induction back with
  | nil => rfl
  | cons y back ih =>
      rw [List.orderedInsert_cons]
      split
      · rfl
      · rename_i hlt
        have hlt : cmp x y = .lt := not_not.mp hlt
        rw [List.filter_cons, ih, List.filter_cons, List.filter_cons, List.filter_cons]
        by_cases hax : cmp a x = .eq
        · have hay : cmp a y = .lt := Std.TransCmp.lt_of_eq_of_lt hax hlt
          simp [hax, hay]
        · simp [hax]

/-- Putting each element behind those that do not come after it is a stable sort; the list is kept
backward. -/
theorem of_insertionSort (xs : List α) :
    IsStableSort cmp xs (xs.reverse.insertionSort fun x y => cmp x y ≠ .lt).reverse := by
  have htotal : Std.Total fun x y => cmp x y ≠ .lt := by
    refine ⟨fun x y => ?_⟩
    by_contra hlt
    rw [not_or, not_not, not_not] at hlt
    exact absurd (Std.OrientedCmp.gt_of_lt hlt.1) (by rw [hlt.2]; decide)
  have htrans : IsTrans α fun x y => cmp x y ≠ .lt := by
    refine ⟨fun x y z hxy hyz => ?_⟩
    have hge := Std.TransCmp.isGE_trans (Ordering.isGE_iff_ne_lt.mpr hxy) (Ordering.isGE_iff_ne_lt.mpr hyz)
    exact Ordering.isGE_iff_ne_lt.mp hge
  have hfilter : ∀ (a : α) (xs : List α),
      (xs.insertionSort (fun x y => cmp x y ≠ .lt) |>.filter fun b => cmp a b = .eq) =
        xs.filter fun b => cmp a b = .eq := by
    intro a xs
    induction xs with
    | nil => rfl
    | cons x xs ih =>
        rw [List.insertionSort_cons, filter_orderedInsert, List.filter_cons, List.filter_cons, ih]
  refine ⟨?_, ?_, ?_⟩
  · exact (List.reverse_perm _).trans ((List.perm_insertionSort _ _).trans (List.reverse_perm _))
  · rw [List.pairwise_reverse]
    refine (List.pairwise_insertionSort _ _).imp fun {a b} hge => ?_
    intro hgt
    exact hge (Std.OrientedCmp.lt_of_gt hgt)
  · intro a ha
    rw [List.filter_reverse, hfilter, List.filter_reverse, List.reverse_reverse]

end IsStableSort

end

namespace Value

/-- The order of two values; values that cannot be compared count as equal. -/
def compared (a b : Value) : Ordering := (a.compare b).toOption.getD .eq

theorem compared_self {a : Value} (ha : a.floatFree) : a.compared a = a.order a := by
  cases h : a.compare a with
  | ok o =>
      rw [compared, h]
      have ha := isFraction_of_floatFree ha
      exact compare_eq_order ha ha h
  | error e =>
      rw [compared, h, order_self]
      rfl

/-- Values that can be compared, either way by the total order. -/
def Ranked (a b : Value) : Prop := a.compare b = .ok (a.order b) ∧ b.compare a = .ok (b.order a)

theorem Ranked.symm {a b : Value} (h : a.Ranked b) : b.Ranked a := ⟨h.2, h.1⟩

theorem Ranked.compared_eq {a b : Value} (h : a.Ranked b) : a.compared b = a.order b := by
  rw [compared, h.1]
  rfl

theorem ranked_of_compare {a b : Value} (ha : a.isFraction = false) (hb : b.isFraction = false)
    (h : ∃ o, a.compare b = .ok o) : a.Ranked b := by
  obtain ⟨o', h'⟩ := exists_compare_comm h
  obtain ⟨o, h⟩ := h
  exact ⟨h.trans (congrArg _ (compare_eq_order ha hb h)), h'.trans (congrArg _ (compare_eq_order hb ha h'))⟩

end Value

namespace Query

/-! ### The order of rows -/

variable {cat : Catalog} {key : SortKey} {keys : List SortKey} {a b : Value} {rows : List Value}

/-- The value of a key for a row. -/
def keyValue (cat : Catalog) (key : SortKey) (row : Value) : Value :=
  (cat.evalLambda key.selector [row]).toOption.getD .null

/-- The order of rows by some keys: the first key that tells two rows apart decides, and a descending key
does so backward. -/
def rowOrder (cat : Catalog) (cmp : Value → Value → Ordering) : List SortKey → Value → Value → Ordering
  | [], _, _ => .eq
  | key :: keys, a, b =>
    let order := cmp (keyValue cat key a) (keyValue cat key b)
    (if key.ascending then order else order.swap).then (rowOrder cat cmp keys a b)

/-- Keys take a total preorder of values to one of rows. -/
instance rowOrder_transCmp {cmp : Value → Value → Ordering} [Std.TransCmp cmp] (keys : List SortKey) :
    Std.TransCmp (rowOrder cat cmp keys) := by
  induction keys with
  | nil => exact { eq_swap := rfl, isLE_trans := fun _ _ => rfl }
  | cons key keys ih =>
      have hforward : Std.TransCmp fun a b => cmp (keyValue cat key a) (keyValue cat key b) :=
        { eq_swap := Std.OrientedCmp.eq_swap, isLE_trans := Std.TransCmp.isLE_trans }
      have hkey : Std.TransCmp fun a b =>
          if key.ascending then cmp (keyValue cat key a) (keyValue cat key b)
          else (cmp (keyValue cat key a) (keyValue cat key b)).swap := by
        cases key.ascending with
        | true => exact hforward
        | false =>
            have hbackward : Std.TransCmp fun a b => cmp (keyValue cat key b) (keyValue cat key a) :=
              Std.TransCmp.opposite
            have hswap : ∀ v w, (cmp v w).swap = cmp w v := fun v w => Std.OrientedCmp.eq_swap.symm
            simpa only [hswap, Bool.false_eq_true, if_false] using hbackward
      exact inferInstanceAs (Std.TransCmp (compareLex _ (rowOrder cat cmp keys)))

theorem rowOrder_congr {cmp cmp' : Value → Value → Ordering}
    (h : ∀ key ∈ keys, cmp (keyValue cat key a) (keyValue cat key b) =
      cmp' (keyValue cat key a) (keyValue cat key b)) :
    rowOrder cat cmp keys a b = rowOrder cat cmp' keys a b := by
  induction keys with
  | nil => rfl
  | cons key keys ih =>
      rw [rowOrder, rowOrder, h key List.mem_cons_self, ih fun k hk => h k (List.mem_cons_of_mem _ hk)]

/-- Rows that the keys can be evaluated for, to values that can be compared and hold no binary fraction. -/
structure Sortable (cat : Catalog) (keys : List SortKey) (rows : List Value) : Prop where
  evaluates : ∀ key ∈ keys, ∀ row ∈ rows, ∃ v, cat.evalLambda key.selector [row] = .ok v ∧ v.floatFree
  comparable : ∀ key ∈ keys,
    rows.Pairwise fun a b => ∃ o, (keyValue cat key a).compare (keyValue cat key b) = .ok o

instance : Decidable (Sortable cat keys rows) :=
  decidable_of_iff
    ((∀ key ∈ keys, ∀ row ∈ rows, (cat.evalLambda key.selector [row]).toOption.any (·.floatFree)) ∧
      ∀ key ∈ keys, rows.Pairwise fun a b => ((keyValue cat key a).compare (keyValue cat key b)).toOption.isSome)
    ⟨fun ⟨hvalues, hcompare⟩ => ⟨fun key hkey row hrow => toOption_any.mp (hvalues key hkey row hrow),
        fun key hkey => (hcompare key hkey).imp toOption_isSome.mp⟩,
      fun h => ⟨fun key hkey row hrow => toOption_any.mpr (h.evaluates key hkey row hrow),
        fun key hkey => (h.comparable key hkey).imp toOption_isSome.mpr⟩⟩

/-- Rows that each key can compare. -/
def Ranked (cat : Catalog) (keys : List SortKey) (a b : Value) : Prop :=
  ∀ key ∈ keys, (keyValue cat key a).Ranked (keyValue cat key b)

instance ranked_symm : Std.Symm (Ranked cat keys) := ⟨fun _ _ h key hkey => (h key hkey).symm⟩

namespace Sortable

theorem evalLambda_eq (h : Sortable cat keys rows) (hkey : key ∈ keys) (ha : a ∈ rows) :
    cat.evalLambda key.selector [a] = .ok (keyValue cat key a) := by
  obtain ⟨v, hv, -⟩ := h.evaluates key hkey a ha
  rw [keyValue, hv]
  rfl

theorem floatFree (h : Sortable cat keys rows) (hkey : key ∈ keys) (ha : a ∈ rows) :
    (keyValue cat key a).floatFree := by
  obtain ⟨v, hv, hfree⟩ := h.evaluates key hkey a ha
  rw [keyValue, hv]
  exact hfree

theorem ranked (h : Sortable cat keys rows) : rows.Pairwise (Ranked cat keys) := by
  refine List.pairwise_iff_forall_sublist.mpr fun {a b} hab key hkey => ?_
  have ha : a ∈ rows := hab.subset List.mem_cons_self
  have hb : b ∈ rows := hab.subset (List.mem_cons_of_mem _ List.mem_cons_self)
  exact Value.ranked_of_compare (Value.isFraction_of_floatFree (h.floatFree hkey ha))
    (Value.isFraction_of_floatFree (h.floatFree hkey hb))
    (List.pairwise_iff_forall_sublist.mp (h.comparable key hkey) hab)

/-- The order of rows that can be sorted is a total preorder's. -/
theorem rowOrder_eq (h : Sortable cat keys rows) (ha : a ∈ rows) (hb : b ∈ rows) :
    rowOrder cat Value.compared keys a b = rowOrder cat Value.order keys a b := by
  refine rowOrder_congr fun key hkey => ?_
  by_cases hab : a = b
  · subst hab
    exact Value.compared_self (h.floatFree hkey ha)
  · exact (h.ranked.forall ha hb hab key hkey).compared_eq

theorem isStableSort_iff (h : Sortable cat keys rows) {out : List Value} :
    IsStableSort (rowOrder cat Value.compared keys) rows out ↔
      IsStableSort (rowOrder cat Value.order keys) rows out :=
  ⟨fun hout => hout.congr fun _ ha _ hb => h.rowOrder_eq ha hb,
    fun hout => hout.congr fun _ ha _ hb => (h.rowOrder_eq ha hb).symm⟩

end Sortable

/-! ### Sorting -/

/-- A row with the values of the keys for it. -/
def Keyed.of (cat : Catalog) (keys : List SortKey) (row : Value) : Keyed :=
  ⟨keys.map fun key => keyValue cat key row, row⟩

/-- No failure is met where the keys can be compared. -/
theorem compareKeys_eq (h : Ranked cat keys a b) :
    compareKeys (keys.map (·.ascending)) (Keyed.of cat keys a).keys (Keyed.of cat keys b).keys none =
      (rowOrder cat Value.order keys a b, none) := by
  induction keys with
  | nil => rfl
  | cons key keys ih =>
      have hfirst : compareNoting (keyValue cat key a) (keyValue cat key b) none =
          ((keyValue cat key a).order (keyValue cat key b), none) := by
        rw [compareNoting, (h key List.mem_cons_self).1]
      have hrest := ih fun k hk => h k (List.mem_cons_of_mem _ hk)
      simp only [Keyed.of, List.map_cons, compareKeys, bind, StateT.bind, hfirst, rowOrder]
      generalize (keyValue cat key a).order (keyValue cat key b) = order
      cases (if key.ascending then order else order.swap) with
      | eq => exact hrest
      | lt => rfl
      | gt => rfl

/-- Rows are placed as elements of an ordered list are. -/
theorem insertRow_eq {back : List Value} (h : ∀ b ∈ back, Ranked cat keys a b) :
    insertRow (keys.map (·.ascending)) (Keyed.of cat keys a) (back.map (Keyed.of cat keys)) none =
      ((back.orderedInsert (fun a b => rowOrder cat Value.order keys a b ≠ .lt) a).map (Keyed.of cat keys),
        none) := by
  induction back with
  | nil => rfl
  | cons b back ih =>
      have hrest := ih fun c hc => h c (List.mem_cons_of_mem _ hc)
      simp only [List.map_cons, insertRow, bind, StateT.bind, compareKeys_eq (h b List.mem_cons_self),
        List.orderedInsert_cons, ite_not]
      split
      · simp only [StateT.bind, hrest, List.map_cons]
        rfl
      · rfl

theorem foldlM_insertRow (back : List Value) (h : (back ++ rows).Pairwise (Ranked cat keys)) :
    (rows.map (Keyed.of cat keys)).foldlM (fun sorted x => insertRow (keys.map (·.ascending)) x sorted)
        (back.map (Keyed.of cat keys)) none =
      ((rows.foldl (fun back a => back.orderedInsert (fun a b => rowOrder cat Value.order keys a b ≠ .lt) a)
        back).map (Keyed.of cat keys), none) := by
  induction rows generalizing back with
  | nil => rfl
  | cons a rows ih =>
      have hperm : (back ++ a :: rows).Perm (a :: back ++ rows) := List.perm_middle
      have hsymm {a b : Value} : Ranked cat keys a b → Ranked cat keys b a := Std.Symm.symm a b
      have hranked := (hperm.pairwise_iff hsymm).mp h
      have hplace : ∀ b ∈ back, Ranked cat keys a b := fun b hb =>
        (List.pairwise_cons.mp hranked).1 b (List.mem_append_left _ hb)
      have hinserted := List.perm_orderedInsert (fun a b => rowOrder cat Value.order keys a b ≠ .lt) a back
      have hnext := ((hinserted.append_right rows).pairwise_iff hsymm).mpr hranked
      simp only [List.map_cons, List.foldlM_cons, bind, StateT.bind, insertRow_eq hplace]
      exact ih _ hnext

theorem sortRows_eq (h : rows.Pairwise (Ranked cat keys)) :
    sortRows (keys.map (·.ascending)) (rows.map (Keyed.of cat keys)) none =
      ((rows.reverse.insertionSort fun a b => rowOrder cat Value.order keys a b ≠ .lt).reverse.map
        (Keyed.of cat keys), none) := by
  have hfold := foldlM_insertRow [] h
  simp only [sortRows, bind, StateT.bind, List.map_nil] at hfold ⊢
  rw [hfold, List.map_reverse, List.insertionSort, List.foldr_reverse]
  rfl

theorem keyed_eq (h : ∀ key ∈ keys, ∀ row ∈ rows, cat.evalLambda key.selector [row] = .ok (keyValue cat key row)) :
    keyed cat keys rows = .ok (rows.map (Keyed.of cat keys)) := by
  refine mapM_eq_ok.mpr (List.forall₂_map_right_iff.mpr (List.forall₂_same.mpr fun row hrow => ?_))
  have hkeys : (keys.mapM fun key => cat.evalLambda key.selector [row]) = .ok (Keyed.of cat keys row).keys :=
    mapM_eq_ok.mpr (List.forall₂_map_right_iff.mpr (List.forall₂_same.mpr fun key hkey => h key hkey row hrow))
  rw [hkeys]
  rfl

/-- Rows with keys that can be compared are sorted by them, stably. -/
theorem sorted_of_ranked
    (hkeys : ∀ key ∈ keys, ∀ row ∈ rows, cat.evalLambda key.selector [row] = .ok (keyValue cat key row))
    (hranked : rows.Pairwise (Ranked cat keys)) :
    ∃ out, sorted cat keys rows = .ok out ∧ IsStableSort (rowOrder cat Value.order keys) rows out := by
  refine ⟨_, ?_, .of_insertionSort rows⟩
  have hrun := sortRows_eq hranked
  have hback : ∀ out : List Value, (out.map (Keyed.of cat keys)).map (·.row) = out := fun out => by
    rw [List.map_map]
    exact List.map_id out
  simp only [sorted, keyed_eq hkeys, bind, Except.bind, StateT.run, hrun, hback]
  rfl

/-- Rows that can be sorted are, stably. -/
theorem Sortable.sorted_eq_ok (h : Sortable cat keys rows) :
    ∃ out, sorted cat keys rows = .ok out ∧ IsStableSort (rowOrder cat Value.compared keys) rows out := by
  obtain ⟨out, hsorted, hstable⟩ := sorted_of_ranked (fun key hkey row hrow => h.evalLambda_eq hkey hrow) h.ranked
  exact ⟨out, hsorted, h.isStableSort_iff.mpr hstable⟩

/-- An ordering is the one stable sort of the rows, key by key, and keeps their type. -/
theorem orderBy_stable {env : Environment} {q : Query} {text : String} {args : List Argument}
    (hcompiles : env.CompilesOrdering q.element text args keys) (hrows : Sortable env.catalog keys q.rows)
    (shapes : Shapes) :
    ∃ out, ((q.orderBy env text args).exec shapes).1 = .ok ⟨q.element, out⟩ ∧
      IsStableSort (rowOrder env.catalog Value.compared keys) q.rows out ∧
      ∀ out', IsStableSort (rowOrder env.catalog Value.compared keys) q.rows out' → out' = out := by
  obtain ⟨out, hsorted, hstable⟩ := hrows.sorted_eq_ok
  refine ⟨out, ?_, hstable, fun out' hout' => ?_⟩
  · rw [exec_orderBy hcompiles, hsorted]
    rfl
  · exact (hrows.isStableSort_iff.mp hout').unique (hrows.isStableSort_iff.mp hstable)

theorem exists_compilesOrdering {env : Environment} {element : Ty} {text : String} {args : List Argument}
    {p : List SortKey → Prop} [DecidablePred p]
    (h : ((env.compileOrdering element text args).exec .empty).1.toOption.any fun keys => p keys) :
    ∃ keys, env.CompilesOrdering element text args keys ∧ p keys := by
  obtain ⟨keys, hkeys, hp⟩ := toOption_any.mp h
  exact ⟨keys, ⟨.empty, hkeys⟩, of_decide_eq_true hp⟩

/-- Cells by their last digit, the greatest first: two pairs of them stay as they stood. -/
theorem orderBy_stable_cells :
    let q : Query := ⟨.cls .cell, [12, 3, 5, 2, 13].map fun n => .object .cell [.int32 n] []⟩
    ∃ keys, Environment.cells.CompilesOrdering q.element "X % @0 desc, X > @0" [.value (.int32 10)] keys ∧
      Sortable Catalog.cells keys q.rows ∧ ∀ shapes, ∃ out,
        ((q.orderBy .cells "X % @0 desc, X > @0" [.value (.int32 10)]).exec shapes).1 = .ok ⟨q.element, out⟩ ∧
        IsStableSort (rowOrder Catalog.cells Value.compared keys) q.rows out ∧
        ∀ out', IsStableSort (rowOrder Catalog.cells Value.compared keys) q.rows out' → out' = out := by
  intro q
  obtain ⟨keys, hcompiles, hrows⟩ : ∃ keys,
      Environment.cells.CompilesOrdering q.element "X % @0 desc, X > @0" [.value (.int32 10)] keys ∧
        Sortable Catalog.cells keys q.rows := exists_compilesOrdering (by decide +kernel)
  exact ⟨keys, hcompiles, hrows, orderBy_stable hcompiles hrows⟩

end Query

end RowQuery
