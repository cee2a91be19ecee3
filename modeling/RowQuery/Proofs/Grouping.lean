import Mathlib.Algebra.GroupWithZero.Nat
import Mathlib.Data.List.Nodup
import RowQuery.Proofs.QuerySteps
import RowQuery.Proofs.Soundness
import RowQuery.Proofs.ValueOrder

/-!
Grouping rows by a key splits them into blocks of equal keys. Rows are known by their positions: a key that
comes for the first time opens a group, and every later row goes to the group whose key its own key equals.
Because equality of keys without binary fractions is an equivalence, there is one such group, and it does not
matter that a row is compared with the first key of a group only.
-/

namespace RowQuery.Query

/-! ### Blocks of positions -/

/-- The positions whose keys equal the key at a position. -/
def block (keys : Nat → Value) (n i : Nat) : List Nat :=
  (List.range n).filter fun j => (keys i).equal (keys j)

/-- The positions at which keys come for the first time. -/
def openers (keys : Nat → Value) (n : Nat) : List Nat :=
  (List.range n).filter fun i => (List.range i).all fun j => !(keys j).equal (keys i)

/-- Blocks of positions: each position stands in one of them, with those of equal keys. The positions of a
block are in order, and so are the blocks by their first positions, whose keys differ. -/
structure IsPartition (keys : Nat → Value) (n : Nat) (blocks : List (List Nat)) : Prop where
  perm : blocks.flatten.Perm (List.range n)
  together : ∀ i < n, ∀ j < n, (∃ block ∈ blocks, i ∈ block ∧ j ∈ block) ↔ (keys i).equal (keys j)
  nonempty : ∀ block ∈ blocks, block ≠ []
  increasing : ∀ block ∈ blocks, block.Pairwise (· < ·)
  ordered : blocks.Pairwise fun b c => b.headD 0 < c.headD 0
  apart : blocks.Pairwise fun b c => (keys (b.headD 0)).equal (keys (c.headD 0)) = false

section

variable {keys items : Nat → Value} {n : Nat}

theorem mem_block {i j : Nat} : j ∈ block keys n i ↔ j < n ∧ (keys i).equal (keys j) := by
  rw [block, List.mem_filter, List.mem_range]

theorem mem_openers {i : Nat} :
    i ∈ openers keys n ↔ i < n ∧ ∀ j < i, (keys j).equal (keys i) = false := by
  simp [openers]

theorem openers_succ : openers keys (n + 1) =
    openers keys n ++ if (List.range n).all fun j => !(keys j).equal (keys n) then [n] else [] := by
  rw [openers, List.range_succ, List.filter_append, List.filter_singleton, Bool.cond_eq_ite]
  rfl

theorem block_succ (i : Nat) :
    block keys (n + 1) i = block keys n i ++ if (keys i).equal (keys n) then [n] else [] := by
  rw [block, List.range_succ, List.filter_append, List.filter_singleton, Bool.cond_eq_ite]
  rfl

theorem openers_lt : (openers keys n).Pairwise (· < ·) := List.pairwise_lt_range.filter _

/-- No two groups have equal keys. -/
theorem openers_apart : (openers keys n).Pairwise fun i j => (keys i).equal (keys j) = false := by
  refine openers_lt.imp_of_mem fun {i j} _ hj hlt => ?_
  exact (mem_openers.mp hj).2 i hlt

variable (hfree : ∀ i < n, (keys i).floatFree)

include hfree

/-- Every key equals one that opens a group. -/
theorem exists_opener {j : Nat} (hj : j < n) : ∃ i ∈ openers keys n, i ≤ j ∧ (keys i).equal (keys j) := by
  induction j using Nat.strongRecOn with
  | ind j ih =>
      by_cases hfirst : ∀ i < j, (keys i).equal (keys j) = false
      · exact ⟨j, mem_openers.mpr ⟨hj, hfirst⟩, Nat.le_refl j, Value.equal_self (hfree j hj)⟩
      · obtain ⟨i, hi, hequal⟩ : ∃ i < j, (keys i).equal (keys j) := by simpa using hfirst
        have hin : i < n := Nat.lt_trans hi hj
        obtain ⟨k, hk, hki, hequal'⟩ := ih i hi hin
        have hkn : k < n := (mem_openers.mp hk).1
        refine ⟨k, hk, Nat.le_trans hki (Nat.le_of_lt hi), ?_⟩
        exact Value.equal_trans (hfree k hkn) (hfree i hin) (hfree j hj) hequal' hequal

/-- A block begins with the position that opens it. -/
theorem headD_block {i : Nat} (hi : i ∈ openers keys n) : (block keys n i).headD 0 = i := by
  obtain ⟨hin, hfirst⟩ := mem_openers.mp hi
  have hmem : i ∈ block keys n i := mem_block.mpr ⟨hin, Value.equal_self (hfree i hin)⟩
  have hsorted : (block keys n i).Pairwise (· < ·) := List.pairwise_lt_range.filter _
  cases hblock : block keys n i with
  | nil =>
      rw [hblock] at hmem
      exact absurd hmem List.not_mem_nil
  | cons j js =>
      have hj : j ∈ block keys n i := by
        rw [hblock]
        exact List.mem_cons_self
      obtain ⟨hjn, hequal⟩ := mem_block.mp hj
      have hle : j ≤ i := by
        rw [hblock] at hmem hsorted
        rcases List.mem_cons.mp hmem with rfl | hmem
        · exact Nat.le_refl _
        · exact Nat.le_of_lt ((List.pairwise_cons.mp hsorted).1 i hmem)
      have hge : ¬ j < i := by
        intro hlt
        have hback := Value.equal_symm (hfree i hin) (hfree j hjn) hequal
        rw [hfirst j hlt] at hback
        cases hback
      exact Nat.le_antisymm hle (Nat.not_lt.mp hge)

/-- The blocks of the positions that open them are a partition. -/
theorem isPartition_openers : IsPartition keys n ((openers keys n).map (block keys n)) := by
  have htogether : ∀ i < n, ∀ j < n, (∃ b ∈ (openers keys n).map (block keys n), i ∈ b ∧ j ∈ b) ↔
      (keys i).equal (keys j) := by
    intro i hi j hj
    constructor
    · rintro ⟨_, hb, hib, hjb⟩
      obtain ⟨k, hk, rfl⟩ := List.mem_map.mp hb
      have hkn : k < n := (mem_openers.mp hk).1
      obtain ⟨-, hki⟩ := mem_block.mp hib
      obtain ⟨-, hkj⟩ := mem_block.mp hjb
      have hik := Value.equal_symm (hfree k hkn) (hfree i hi) hki
      exact Value.equal_trans (hfree i hi) (hfree k hkn) (hfree j hj) hik hkj
    · intro hequal
      obtain ⟨k, hk, -, hki⟩ := exists_opener hfree hi
      have hkn : k < n := (mem_openers.mp hk).1
      have hkj := Value.equal_trans (hfree k hkn) (hfree i hi) (hfree j hj) hki hequal
      exact ⟨_, List.mem_map_of_mem hk, mem_block.mpr ⟨hi, hki⟩, mem_block.mpr ⟨hj, hkj⟩⟩
  have hsorted : ∀ i, (block keys n i).Pairwise (· < ·) := fun i => List.pairwise_lt_range.filter _
  have hdisjoint : ((openers keys n).map (block keys n)).Pairwise List.Disjoint := by
    refine List.pairwise_map.mpr (openers_apart.imp_of_mem fun {i j} hi hj hne k hki hkj => ?_)
    have hin : i < n := (mem_openers.mp hi).1
    have hjn : j < n := (mem_openers.mp hj).1
    obtain ⟨hkn, hik⟩ := mem_block.mp hki
    obtain ⟨-, hjk⟩ := mem_block.mp hkj
    have hkj := Value.equal_symm (hfree j hjn) (hfree k hkn) hjk
    have hij := Value.equal_trans (hfree i hin) (hfree k hkn) (hfree j hjn) hik hkj
    rw [hne] at hij
    cases hij
  refine ⟨?_, htogether, ?_, ?_, ?_, ?_⟩
  · have hnodup : ((openers keys n).map (block keys n)).flatten.Nodup := by
      refine List.nodup_flatten.mpr ⟨fun b hb => ?_, hdisjoint⟩
      obtain ⟨i, -, rfl⟩ := List.mem_map.mp hb
      exact (hsorted i).imp Nat.ne_of_lt
    refine (List.perm_ext_iff_of_nodup hnodup List.nodup_range).mpr fun j => ?_
    rw [List.mem_flatten, List.mem_range]
    constructor
    · rintro ⟨_, hb, hjb⟩
      obtain ⟨i, -, rfl⟩ := List.mem_map.mp hb
      exact (mem_block.mp hjb).1
    · intro hj
      obtain ⟨b, hb, hjb, -⟩ := (htogether j hj j hj).mpr (Value.equal_self (hfree j hj))
      exact ⟨b, hb, hjb⟩
  · intro b hb
    obtain ⟨i, hi, rfl⟩ := List.mem_map.mp hb
    have hin : i < n := (mem_openers.mp hi).1
    exact List.ne_nil_of_mem (mem_block.mpr ⟨hin, Value.equal_self (hfree i hin)⟩)
  · intro b hb
    obtain ⟨i, -, rfl⟩ := List.mem_map.mp hb
    exact hsorted i
  · refine List.pairwise_map.mpr (openers_lt.imp_of_mem fun {i j} hi hj hlt => ?_)
    rwa [headD_block hfree hi, headD_block hfree hj]
  · refine List.pairwise_map.mpr (openers_apart.imp_of_mem fun {i j} hi hj hne => ?_)
    rwa [headD_block hfree hi, headD_block hfree hj]

end

/-! ### Groups -/

section

variable {keys items : Nat → Value} {n : Nat}

/-- The groups of so many rows. -/
def groupsAt (keys items : Nat → Value) (n : Nat) : List (Value × List Value) :=
  (openers keys n).map fun i => (keys i, (block keys n i).map items)

/-- Among groups with keys that differ, an item goes to the one whose key equals its own, or to a new one. -/
theorem addToGroup_map {key : Value} (item : Value) (content : Nat → List Value) {is : List Nat}
    (hkey : key.floatFree) (hfree : ∀ i ∈ is, (keys i).floatFree)
    (hapart : is.Pairwise fun i j => (keys i).equal (keys j) = false) :
    addToGroup key item (is.map fun i => (keys i, content i)) =
      (is.map fun i => (keys i, content i ++ if (keys i).equal key then [item] else [])) ++
        if is.all fun i => !(keys i).equal key then [(key, [item])] else [] := by
  induction is with
  | nil => rfl
  | cons i is ih =>
      obtain ⟨hi, his⟩ := List.pairwise_cons.mp hapart
      obtain ⟨hfreei, hfreeis⟩ := List.forall_mem_cons.mp hfree
      rw [List.map_cons, addToGroup]
      by_cases hequal : (keys i).equal key
      · have hrest : ∀ j ∈ is, (keys j).equal key = false := by
          intro j hj
          rw [Bool.eq_false_iff]
          intro hjkey
          have hkeyj := Value.equal_symm (hfreeis j hj) hkey hjkey
          have hij := Value.equal_trans hfreei hkey (hfreeis j hj) hequal hkeyj
          rw [hi j hj] at hij
          cases hij
        have hsame : (is.map fun j => (keys j, content j ++ if (keys j).equal key then [item] else [])) =
            is.map fun j => (keys j, content j) :=
          List.map_congr_left fun j hj => by simp [hrest j hj]
        simp [hequal, hsame]
      · simp [hequal, ih hfreeis his]

/-- A row more is an item more. -/
theorem addToGroup_groupsAt (hfree : ∀ i < n + 1, (keys i).floatFree) :
    addToGroup (keys n) (items n) (groupsAt keys items n) = groupsAt keys items (n + 1) := by
  have hbefore : ∀ i < n, (keys i).floatFree := fun i hi => hfree i (Nat.lt_succ_of_lt hi)
  have hn : (keys n).floatFree := hfree n (Nat.lt_succ_self n)
  have hnew : ((openers keys n).all fun i => !(keys i).equal (keys n)) =
      (List.range n).all fun i => !(keys i).equal (keys n) := by
    rw [Bool.eq_iff_iff, List.all_eq_true, List.all_eq_true]
    constructor
    · intro h j hj
      obtain ⟨i, hi, -, hij⟩ := exists_opener hbefore (List.mem_range.mp hj)
      by_contra hjn
      have hjn : (keys j).equal (keys n) := by simpa using hjn
      have hin := Value.equal_trans (hbefore i (mem_openers.mp hi).1) (hbefore j (List.mem_range.mp hj)) hn hij hjn
      simpa [hin] using h i hi
    · intro h i hi
      exact h i (List.mem_range.mpr (mem_openers.mp hi).1)
  have hopeners : ∀ i ∈ openers keys n, (keys i).floatFree := fun i hi => hbefore i (mem_openers.mp hi).1
  rw [groupsAt, addToGroup_map (items n) _ hn hopeners openers_apart, hnew, groupsAt, openers_succ,
    List.map_append]
  congr 1
  · refine List.map_congr_left fun i _ => ?_
    rw [block_succ, List.map_append]
    split <;> rfl
  · split
    · rename_i hall
      have hempty : block keys n n = [] := by
        refine List.filter_eq_nil_iff.mpr fun j hj hequal => ?_
        have hback := Value.equal_symm hn (hbefore j (List.mem_range.mp hj)) hequal
        simpa [hback] using List.all_eq_true.mp hall j hj
      simp [block_succ, hempty, Value.equal_self hn]
    · rfl

/-- The run over the rows: after each of them, the groups are those of the rows so far. -/
theorem foldl_addToGroup (hfree : ∀ i < n, (keys i).floatFree) :
    (List.range n).foldl (fun groups i => addToGroup (keys i) (items i) groups) [] = groupsAt keys items n := by
  induction n with
  | zero => rfl
  | succ n ih =>
      rw [List.range_succ, List.foldl_append, ih fun i hi => hfree i (Nat.lt_succ_of_lt hi)]
      exact addToGroup_groupsAt hfree

end

/-! ### Steps -/

section

variable {env : Environment} {q : Query} {text : String} {item : Option String} {args : List Argument}
  {key : Lambda} {element : Option Lambda} {keys items rows : List Value} {groups : List (Value × List Value)}

/-- What a row puts into its group: the value of an expression, or itself. -/
def itemOf (cat : Catalog) (element : Option Lambda) (row : Value) : Except EvalError Value :=
  match element with
  | some l => cat.evalLambda l [row]
  | none => .ok row

/-- The value at a position. -/
def valueAt (values : List Value) (i : Nat) : Value := values.getD i .null

/-- The rows of a query, grouped. -/
theorem exec_groupBy (hkey : env.Compiles [⟨none, q.element⟩] none text args key)
    (helement : Option.Rel (fun text l => env.Compiles [⟨none, q.element⟩] none text args l) item element)
    (hgroups : grouped env.catalog key element q.rows = .ok groups) (shapes : Shapes) :
    ((q.groupBy env text item args).exec shapes).1 =
      .ok ⟨.grouping key.resultType ((element.map (·.resultType)).getD q.element),
        groups.map fun (k, items) => .group k items⟩ := by
  obtain ⟨made, hcompiled⟩ := exec_compiling "key" hkey.not_blank hkey.compile_eq_ok shapes
  have hevaluated : ∀ made, (evaluated (grouped env.catalog key element q.rows)).exec made = (.ok groups, made) := by
    intro made
    rw [exec_evaluated, hgroups]
    rfl
  cases helement with
  | none =>
      refine Shaping.exec_fst_eq_ok.mpr ⟨made, Shaping.exec_bind_eq_ok.mpr ⟨key, made, hcompiled, ?_⟩⟩
      refine Shaping.exec_bind_eq_ok.mpr ⟨none, made, rfl, ?_⟩
      exact Shaping.exec_bind_eq_ok.mpr ⟨groups, made, hevaluated made, rfl⟩
  | @some text l h =>
      obtain ⟨made', hrun⟩ := exec_compiling "element" h.not_blank h.compile_eq_ok made
      refine Shaping.exec_fst_eq_ok.mpr ⟨made', Shaping.exec_bind_eq_ok.mpr ⟨key, made, hcompiled, ?_⟩⟩
      refine Shaping.exec_bind_eq_ok.mpr ⟨some l, made', Shaping.exec_map_eq_ok.mpr ⟨l, hrun, rfl⟩, ?_⟩
      exact Shaping.exec_bind_eq_ok.mpr ⟨groups, made', hevaluated made', rfl⟩

theorem grouped_eq_foldlM (cat : Catalog) (key : Lambda) (element : Option Lambda) (rows : List Value) :
    grouped cat key element rows = rows.foldlM (fun groups row => do
      let k ← cat.evalLambda key [row]
      let i ← itemOf cat element row
      return addToGroup k i groups) [] := by
  cases element <;> rfl

theorem foldlM_addToGroup {cat : Catalog}
    (hkeys : List.Forall₂ (fun row v => cat.evalLambda key [row] = .ok v) rows keys)
    (hitems : List.Forall₂ (fun row v => itemOf cat element row = .ok v) rows items)
    (groups : List (Value × List Value)) :
    rows.foldlM (fun groups row => do
      let k ← cat.evalLambda key [row]
      let i ← itemOf cat element row
      return addToGroup k i groups) groups =
      .ok ((keys.zip items).foldl (fun groups entry => addToGroup entry.1 entry.2 groups) groups) := by
  induction hkeys generalizing items groups with
  | nil =>
      cases hitems
      rfl
  | cons hkey _ ih =>
      cases hitems with
      | cons hitem hitems =>
          rw [List.foldlM_cons, hkey, hitem]
          exact ih hitems _

theorem grouped_eq {cat : Catalog} (hkeys : List.Forall₂ (fun row v => cat.evalLambda key [row] = .ok v) rows keys)
    (hfree : ∀ i < rows.length, (valueAt keys i).floatFree)
    (hitems : List.Forall₂ (fun row v => itemOf cat element row = .ok v) rows items) :
    grouped cat key element rows = .ok (groupsAt (valueAt keys) (valueAt items) rows.length) := by
  have hlength : keys.length = rows.length := hkeys.length_eq.symm
  have hlength' : items.length = rows.length := hitems.length_eq.symm
  have hzip : keys.zip items = (List.range rows.length).map fun i => (valueAt keys i, valueAt items i) := by
    refine List.ext_getElem (by simp [hlength, hlength']) fun i hi _ => ?_
    obtain ⟨hk, hv⟩ : i < keys.length ∧ i < items.length := by
      rw [List.length_zip] at hi
      omega
    simp [valueAt, hk, hv]
  rw [grouped_eq_foldlM, foldlM_addToGroup hkeys hitems, hzip, List.foldl_map, foldl_addToGroup hfree]

/-- Grouping puts each row into one group, with the rows of equal keys. -/
theorem groupBy_partition (hkey : env.Compiles [⟨none, q.element⟩] none text args key)
    (helement : Option.Rel (fun text l => env.Compiles [⟨none, q.element⟩] none text args l) item element)
    (hkeys : List.Forall₂ (fun row v => env.catalog.evalLambda key [row] = .ok v) q.rows keys)
    (hfree : ∀ v ∈ keys, v.floatFree)
    (hitems : List.Forall₂ (fun row v => itemOf env.catalog element row = .ok v) q.rows items)
    (shapes : Shapes) : ∃ blocks, IsPartition (valueAt keys) q.rows.length blocks ∧
      ((q.groupBy env text item args).exec shapes).1 =
        .ok ⟨.grouping key.resultType ((element.map (·.resultType)).getD q.element),
          blocks.map fun block => .group (valueAt keys (block.headD 0)) (block.map (valueAt items))⟩ ∧
      (blocks.map List.length).sum = q.rows.length := by
  have hfree : ∀ i < q.rows.length, (valueAt keys i).floatFree := by
    intro i hi
    rw [hkeys.length_eq] at hi
    have hvalue : valueAt keys i = keys[i] := by simp [valueAt, hi]
    rw [hvalue]
    exact hfree _ (List.getElem_mem hi)
  have hpartition := isPartition_openers hfree
  refine ⟨_, hpartition, ?_, ?_⟩
  · rw [exec_groupBy hkey helement (grouped_eq hkeys hfree hitems), groupsAt, List.map_map, List.map_map]
    congr 2
    refine List.map_congr_left fun i hi => ?_
    simp only [Function.comp_apply, headD_block hfree hi]
  · rw [← List.length_flatten, hpartition.perm.length_eq, List.length_range]

/-- Cells by their last digits, with their first digits in the groups. -/
theorem groupBy_partition_cells :
    let q : Query := ⟨.cls .cell, [12, 3, 42, 5, 13].map fun n => .object .cell [.int32 n] []⟩
    ∃ key element keys items, Environment.cells.Compiles [⟨none, q.element⟩] none "X % 10" [] key ∧
      Environment.cells.Compiles [⟨none, q.element⟩] none "X / 10" [] element ∧
      List.Forall₂ (fun row v => Catalog.cells.evalLambda key [row] = .ok v) q.rows keys ∧
      (∀ v ∈ keys, v.floatFree) ∧
      List.Forall₂ (fun row v => itemOf Catalog.cells (some element) row = .ok v) q.rows items ∧
      ∀ shapes, ∃ blocks, IsPartition (valueAt keys) 5 blocks ∧
        ((q.groupBy .cells "X % 10" (some "X / 10") []).exec shapes).1 =
          .ok ⟨.grouping key.resultType element.resultType,
            blocks.map fun block => .group (valueAt keys (block.headD 0)) (block.map (valueAt items))⟩ ∧
        (blocks.map List.length).sum = 5 := by
  intro q
  obtain ⟨key, hkey, hkeys⟩ : ∃ key, Environment.cells.Compiles [⟨none, q.element⟩] none "X % 10" [] key ∧
      (q.rows.mapM fun row => Catalog.cells.evalLambda key [row]).toOption.any fun keys => keys.all (·.floatFree) :=
    Environment.exists_compiles (by decide +kernel)
  obtain ⟨element, helement, hitems⟩ : ∃ element,
      Environment.cells.Compiles [⟨none, q.element⟩] none "X / 10" [] element ∧
        (q.rows.mapM fun row => Catalog.cells.evalLambda element [row]).toOption.isSome :=
    Environment.exists_compiles (by decide +kernel)
  obtain ⟨keys, hkeys, hfree⟩ := toOption_any.mp hkeys
  obtain ⟨items, hitems⟩ := toOption_isSome.mp hitems
  have hfree : ∀ v ∈ keys, v.floatFree := List.all_eq_true.mp hfree
  exact ⟨key, element, keys, items, hkey, helement, mapM_eq_ok.mp hkeys, hfree, mapM_eq_ok.mp hitems,
    groupBy_partition hkey (.some helement) (mapM_eq_ok.mp hkeys) hfree (mapM_eq_ok.mp hitems)⟩

end

end RowQuery.Query
