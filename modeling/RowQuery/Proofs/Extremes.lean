import RowQuery.Proofs.FilterAggregate
import RowQuery.Proofs.Selection
import RowQuery.Proofs.StableOrder

/-!
The least and the greatest of the values that are selected from items. Going through the items, an extreme keeps the
first of the values that is beaten by none before it, so it ends with the first one that no other beats. A stable sort
puts just that one in front. So the extremes of a key over a list of rows are the keys of the rows that an ordering by
the key, forward or backward, puts first.
-/

namespace RowQuery

open Parse Grammar Lexeme
open Eval (Answers)

/-! ### First elements -/

section

variable {α β : Type} {cmp : α → α → Ordering} {xs ys : List α} {x y : α}

/-- The first element of a list that comes after no other one. -/
def IsFirst (cmp : α → α → Ordering) (xs : List α) (x : α) : Prop :=
  ∃ before after, xs = before ++ x :: after ∧ (∀ y ∈ before ++ after, cmp x y ≠ .gt) ∧ ∀ y ∈ before, cmp x y = .lt

namespace IsFirst

theorem mem (h : IsFirst cmp xs x) : x ∈ xs := by
  obtain ⟨before, after, rfl, -⟩ := h
  simp

theorem singleton (x : α) : IsFirst cmp [x] x := ⟨[], [], rfl, by simp, by simp⟩

theorem map {f : β → α} {bs : List β} {b : β} (h : IsFirst (fun b c => cmp (f b) (f c)) bs b) :
    IsFirst cmp (bs.map f) (f b) := by
  obtain ⟨before, after, rfl, hall, hbefore⟩ := h
  refine ⟨before.map f, after.map f, by simp, ?_, List.forall_mem_map.mpr hbefore⟩
  rw [← List.map_append]
  exact List.forall_mem_map.mpr hall

/-- There is one first element. -/
theorem unique [Std.OrientedCmp cmp] (hx : IsFirst cmp xs x) (hy : IsFirst cmp xs y) : x = y := by
  obtain ⟨before, after, rfl, hall, hbefore⟩ := hx
  obtain ⟨before', after', heq, hall', hbefore'⟩ := hy
  have hnever : ∀ {a b : α}, cmp a b = .lt → cmp b a ≠ .gt → False :=
    fun hlt hle => hle (Std.OrientedCmp.gt_of_lt hlt)
  rcases List.append_eq_append_iff.mp heq with ⟨middle, rfl, htail⟩ | ⟨middle, rfl, htail⟩
  · cases middle with
    | nil => exact (List.cons.inj htail).1
    | cons c middle =>
        obtain ⟨rfl, rfl⟩ := List.cons.inj htail
        exact (hnever (hbefore' x (by simp)) (hall y (by simp))).elim
  · cases middle with
    | nil => exact (List.cons.inj htail).1.symm
    | cons c middle =>
        obtain ⟨rfl, rfl⟩ := List.cons.inj htail
        exact (hnever (hbefore y (by simp)) (hall' x (by simp))).elim

variable [Std.TransCmp cmp]

/-- Another element takes the place of the first one only if it comes before it. -/
theorem concat (h : IsFirst cmp xs x) (y : α) : IsFirst cmp (xs ++ [y]) (if cmp y x = .lt then y else x) := by
  obtain ⟨before, after, rfl, hall, hbefore⟩ := h
  have hself : cmp x x ≠ .gt := by simp [Std.ReflCmp.compare_self]
  split
  · rename_i hlt
    have hbelow : ∀ z ∈ before ++ x :: after, cmp y z = .lt := by
      intro z hz
      have hle : cmp x z ≠ .gt := by
        rcases List.mem_append.mp hz with hz | hz
        · exact hall z (List.mem_append_left _ hz)
        · rcases List.mem_cons.mp hz with rfl | hz
          · exact hself
          · exact hall z (List.mem_append_right _ hz)
      exact Std.TransCmp.lt_of_lt_of_isLE hlt (Ordering.isLE_iff_ne_gt.mpr hle)
    refine ⟨before ++ x :: after, [], rfl, fun z hz => ?_, hbelow⟩
    rw [List.append_nil] at hz
    simp [hbelow z hz]
  · rename_i hge
    refine ⟨before, after ++ [y], by simp, fun z hz => ?_, hbefore⟩
    rw [← List.append_assoc] at hz
    rcases List.mem_append.mp hz with hz | hz
    · exact hall z hz
    · obtain rfl := List.mem_singleton.mp hz
      exact fun hgt => hge (Std.OrientedCmp.lt_of_gt hgt)

end IsFirst

namespace IsStableSort

/-- Leaving out elements leaves a stable sort. -/
theorem filter (p : α → Bool) (h : IsStableSort cmp xs ys) : IsStableSort cmp (xs.filter p) (ys.filter p) where
  perm := h.perm.filter p
  ordered := h.ordered.filter p
  stable a ha := by
    rw [List.filter_comm, h.stable a (List.mem_of_mem_filter ha), List.filter_comm]

/-- A stable sort puts the first element in front. -/
theorem isFirst [Std.TransCmp cmp] (h : IsStableSort cmp xs (y :: ys)) : IsFirst cmp xs y := by
  have hself : cmp y y = .eq := Std.ReflCmp.compare_self
  have hclass := h.stable y (h.perm.mem_iff.mp List.mem_cons_self)
  rw [List.filter_cons_of_pos (by simp [hself])] at hclass
  obtain ⟨before, after, rfl, hbefore, -, -⟩ := List.filter_eq_cons_iff.mp hclass.symm
  have hle : ∀ z ∈ before ++ y :: after, cmp y z ≠ .gt := by
    intro z hz
    rcases List.mem_cons.mp (h.perm.mem_iff.mpr hz) with rfl | hz
    · simp [hself]
    · exact (List.pairwise_cons.mp h.ordered).1 z hz
  refine ⟨before, after, rfl, fun z hz => hle z ?_, fun z hz => ?_⟩
  · rcases List.mem_append.mp hz with hz | hz
    · exact List.mem_append_left _ hz
    · exact List.mem_append_right _ (List.mem_cons_of_mem _ hz)
  · have hne : cmp y z ≠ .eq := by simpa using hbefore z hz
    have hle := hle z (List.mem_append_left _ hz)
    cases hcmp : cmp y z with
    | lt => rfl
    | eq => exact absurd hcmp hne
    | gt => exact absurd hcmp hle

end IsStableSort

end

/-! ### Extremes -/

/-- The order of values by which an extreme goes: the greatest is the first one backward. -/
def Value.preferred (op : AggregateOp) (a b : Value) : Ordering := if op = .min then a.order b else b.order a

instance (op : AggregateOp) : Std.TransCmp (Value.preferred op) := by
  unfold Value.preferred
  split
  · exact inferInstanceAs (Std.TransCmp Value.order)
  · exact Std.TransCmp.opposite

namespace Aggregate

open Selecting

variable {op : AggregateOp} {v w : Value} {vs ws later : List Value}

theorem better_eq (h : w.Ranked v) :
    better op (some v) w = .ok (some (if Value.preferred op w v = .lt then w else v)) := by
  have hswap : (w.order v = .gt) ↔ v.order w = .lt := by
    rw [Value.order_swap w v]
    cases v.order w <;> decide
  simp only [better, h.1, bind, Except.bind, pure, Except.pure, Value.preferred]
  by_cases hop : op = .min
  · simp [hop]
  · simp [hop, hswap]

/-- What is kept is the first value so far. -/
theorem foldlM_better (h : IsFirst (Value.preferred op) ws v) (hranked : (ws ++ later).Pairwise Value.Ranked) :
    ∃ v', later.foldlM (better op) (some v) = .ok (some v') ∧ IsFirst (Value.preferred op) (ws ++ later) v' := by
  induction later generalizing ws v with
  | nil => exact ⟨v, rfl, by rwa [List.append_nil]⟩
  | cons w later ih =>
      rw [List.append_cons] at hranked ⊢
      have hw : w.Ranked v :=
        ((List.pairwise_append.mp (List.pairwise_append.mp hranked).1).2.2 v h.mem w (by simp)).symm
      obtain ⟨v', hfold, hfirst⟩ := ih (h.concat w) hranked
      exact ⟨v', by rw [List.foldlM_cons, better_eq hw]; exact hfold, hfirst⟩

/-- An extreme is the first of the values that are present, or what there is for no value. -/
theorem exec_extreme (hop : op = .min ∨ op = .max) {σ : Type} {items : List Value}
    {select : Value → Selecting σ Value} {s t : σ} (hselect : exec (items.mapM select) s = (.ok vs, t))
    (hranked : (present vs).Pairwise Value.Ranked) (body : Option Ty) (result : Ty) :
    (present vs = [] ∧ exec (apply op items body result select) s = (empty result, t)) ∨
      ∃ v, IsFirst (Value.preferred op) (present vs) v ∧
        exec (apply op items body result select) s = (.ok v, t) := by
  have hrun : ∀ {best}, (present vs).foldlM (better op) none = .ok best →
      exec (apply op items body result select) s = (best.elim (empty result) .ok, t) := by
    intro best hfold
    have hbest := exec_foldlM_gather hselect hfold
    rcases hop with rfl | rfl
    all_goals
      refine (exec_bind_ok hbest _).trans ?_
      cases best with
      | none => exact exec_rule _ _
      | some v => rfl
  cases hpresent : present vs with
  | nil =>
      rw [hpresent] at hrun
      exact Or.inl ⟨rfl, hrun rfl⟩
  | cons w ws =>
      rw [hpresent] at hrun hranked
      obtain ⟨v, hfold, hfirst⟩ := foldlM_better (IsFirst.singleton w) hranked
      exact Or.inr ⟨v, hfirst, hrun hfold⟩

/-- The first of some values that is no greater than every other one; or no less, if the greatest is asked for. -/
def FirstExtreme (op : AggregateOp) (vs : List Value) (v : Value) : Prop :=
  let leads := fun a b : Value => ∃ o, a.compare b = .ok o ∧ o ≠ if op = .min then .gt else .lt
  ∃ before after, vs = before ++ v :: after ∧ (∀ u ∈ before ++ after, leads v u) ∧ ∀ u ∈ before, ¬leads u v

theorem firstExtreme_of_isFirst (h : IsFirst (Value.preferred op) vs v) (hranked : vs.Pairwise Value.Ranked) :
    FirstExtreme op vs v := by
  obtain ⟨before, after, rfl, hall, hbefore⟩ := h
  have hleads : ∀ {a b : Value}, a.Ranked b →
      ((∃ o, a.compare b = .ok o ∧ o ≠ if op = .min then .gt else .lt) ↔ Value.preferred op a b ≠ .gt) := by
    intro a b hab
    have hswap : (a.order b = .lt) ↔ b.order a = .gt := by
      rw [Value.order_swap a b]
      cases b.order a <;> decide
    rw [hab.1]
    by_cases hop : op = .min
    · simp [Value.preferred, hop]
    · simp [Value.preferred, hop, hswap]
  obtain ⟨-, hlast, hacross⟩ := List.pairwise_append.mp hranked
  have hrankedBefore : ∀ u ∈ before, u.Ranked v := fun u hu => hacross u hu v List.mem_cons_self
  refine ⟨before, after, rfl, fun u hu => (hleads ?_).mpr (hall u hu), fun u hu => ?_⟩
  · rcases List.mem_append.mp hu with hu | hu
    · exact (hrankedBefore u hu).symm
    · exact (List.pairwise_cons.mp hlast).1 u hu
  · intro hlead
    exact (hleads (hrankedBefore u hu)).mp hlead (Std.OrientedCmp.gt_of_lt (hbefore u hu))

end Aggregate

/-! ### Keys in both directions -/

namespace Grammar

variable {scope : Scope} {m : Nat × Shapes} {rest : List Lexeme}

/-- A key without a direction is an ascending one. -/
theorem takes_ascending : Takes direction scope m [] true m [] := by
  intro s hs hm
  have hdone : s.token.kind = .done := kind_of_shows hs.shows
  exact ⟨s, (reads_direction_plain fun word _ => isWord_of_done hdone word).mpr ⟨rfl, rfl⟩, hs, hm⟩

theorem takes_descending : Takes direction scope m [⟨.identifier, "desc"⟩] false m rest := by
  refine Takes.look fun t ht => ?_
  have hlexeme : t.lexeme = ⟨.identifier, "desc"⟩ := ht
  have hword : ∀ word, t.isWord word = Text.sameName "desc" word := by
    intro word
    rw [Token.isWord, show t.kind = .identifier from congrArg Lexeme.kind hlexeme,
      show t.text = "desc" from congrArg Lexeme.text hlexeme]
    rfl
  have hup : (t.isWord "asc" || t.isWord "ascending") = false := by
    rw [hword, hword]
    decide
  have hdown : (t.isWord "desc" || t.isWord "descending") = true := by
    rw [hword, hword]
    decide
  rw [if_neg (by simp [hup]), if_pos hdown]
  exact Takes.skip (takes_pure false)

end Grammar

/-- A key with its direction. -/
def Query.directed (key : String) (ascending : Bool) : String := if ascending then key else key ++ " desc"

namespace Environment

variable {env : Environment} {element : Ty} {key text : String} {args : List Argument} {l : Lambda}

/-- A text whose lexemes are taken as one key is an ordering by it. -/
theorem compilesOrdering_of_takes {symbols : Symbols} {ls : List Lexeme} {ascending : Bool} {shapes : Shapes}
    (hsymbols : Symbols.ofText (bindParams [⟨none, element⟩]) args = .ok symbols) (hscans : Scans text.toList ls)
    (hparams : l.params = bindParams [⟨none, element⟩])
    (h : Takes Grammar.key (env.scope (bindParams [⟨none, element⟩]) symbols) (1, .empty) ls (l.body, ascending)
      (l.slots, shapes) []) : env.CompilesOrdering element text args [⟨l, ascending⟩] := by
  obtain ⟨s, hadvance, hahead, hmade⟩ := hscans.begins (env.scope (bindParams [⟨none, element⟩]) symbols)
    (bindParams [⟨none, element⟩]) .empty
  obtain ⟨s', hkey, hahead', hmade'⟩ := h s (by rwa [List.append_nil]) hmade
  have hdone : s'.token.kind = .done := kind_of_shows hahead'.shows
  have hkeys : sortKeys element l.slots [(l.body, ascending)] = [⟨l, ascending⟩] := by
    rw [sortKeys, ← hparams]
    rfl
  refine ⟨.empty, Environment.compileOrdering_eq_ok.mpr ⟨[(l.body, ascending)], l.slots, ?_, ?_⟩⟩
  · exact ⟨symbols, hsymbols, s, s', hadvance, .last hkey, hdone, congrArg Prod.fst hmade'⟩
  · exact hkeys.symm

/-- An expression of rows is a key in both directions. -/
theorem Compiles.ordering (h : env.Compiles [⟨none, element⟩] none key args l) (ascending : Bool) :
    env.CompilesOrdering element (Query.directed key ascending) args [⟨l, ascending⟩] := by
  obtain ⟨made, h⟩ := h.within
  obtain ⟨hparams, body, htext, hresult⟩ := Environment.compileWithin_eq_ok.mp h
  cases hresult
  rw [hparams] at htext
  have htext : env.ReadsText (bindParams [⟨none, element⟩]) args key (Reads (reader (level (maxDepth - 1)) 0)) made
      l.body l.slots := htext
  obtain ⟨symbols, ls, grow, hsymbols, hscans, htakes⟩ := htext.takes (Nat.le_refl _) (bindParams_slots _)
  have hexpression : ∀ rest : List Lexeme, Grammar.Closes rest → Stops 0 rest →
      Takes expression (env.scope (bindParams [⟨none, element⟩]) symbols) (1, .empty) ls l.body
        (l.slots, grow .empty) rest := by
    intro rest hcloses hstops
    have hread := htakes 0 .empty rest hcloses hstops
    rwa [raise_zero, Expr.mapSlots_id] at hread
  cases ascending with
  | true =>
      have hkey : Takes Grammar.key _ _ ls (l.body, true) _ [] :=
        (hexpression [] (.of_first (by decide)) (.nil 0)).last (takes_ascending.last (takes_pure _))
      exact compilesOrdering_of_takes hsymbols hscans hparams hkey
  | false =>
      have hword : Lexeme.Whole ⟨.identifier, "desc"⟩ := ⟨_, _, rfl, by decide, rfl⟩
      have hdesc : Scans "desc".toList [⟨.identifier, "desc"⟩] := .single hword
      have hblank : Divides ' ' := divides_blank (by decide)
      have hall := hscans.append (hdesc.after_blank (c := ' ') (by decide)) fun l _ => hblank.ends l.kind _
      have hscans : Scans (key ++ " desc").toList (ls ++ [⟨.identifier, "desc"⟩]) := by simpa using hall
      have hstops : Stops 0 [⟨.identifier, "desc"⟩] := .of_word rfl (by decide)
      have hkey : Takes Grammar.key _ _ (ls ++ [⟨.identifier, "desc"⟩]) (l.body, false) _ [] :=
        (hexpression _ (.of_word rfl) hstops).bind (takes_descending.last (takes_pure _))
      exact compilesOrdering_of_takes hsymbols hscans hparams hkey

end Environment

/-! ### Aggregates and orderings -/

/-- Every expression can be made an object. -/
theorem Catalog.exists_promote_object (cat : Catalog) (e : Expr) : ∃ e', cat.promote? e .object false = some e' := by
  unfold promote? isCompatible
  split
  · exact ⟨_, rfl⟩
  · dsimp only
    split <;> exact ⟨_, rfl⟩

theorem Typing.aggregate_extreme (cat : Catalog) {op : AggregateOp} (hop : op = .min ∨ op = .max) (source : Expr)
    (slot : Nat) (e : Expr) :
    Typing.aggregate cat source slot op.name [e] =
      .ok (.aggregate (aggregateType cat op source.ty (some e.ty)) op slot source (some e)) := by
  obtain ⟨e', he'⟩ := cat.exists_promote_object e
  have hpromoted : Overload.promoteAll? cat [e] [.object] = some [e'] := by simp [Overload.promoteAll?, he']
  have hone : Overload.resolve cat [[.object]] [e] = .found ⟨0, [.object], [e']⟩ :=
    Overload.resolve_of_applicable (by simp [Overload.applicable, List.zipIdx, hpromoted])
  have hmin : Signatures.aggregatesNamed AggregateOp.min.name = [(.min, [.object])] := by decide
  have hmax : Signatures.aggregatesNamed AggregateOp.max.name = [(.max, [.object])] := by decide
  rcases hop with rfl | rfl
  · simp [aggregate, Overload.choose, hmin, hone]
  · simp [aggregate, Overload.choose, hmax, hone]

/-- Selections that come to the same whatever the slots hold succeed one after the other. -/
theorem Aggregate.exec_mapM_of_answers {f : Value → Eval Value} {items vs : List Value}
    (h : List.Forall₂ (fun item v => Answers (fun _ => True) (f item) (.ok v)) items vs) (s : Slots) :
    ∃ t, Selecting.exec (items.mapM f) s = (.ok vs, t) := by
  induction h generalizing s with
  | nil => exact ⟨s, rfl⟩
  | cons hfirst _ ih =>
      obtain ⟨t, ht⟩ := ih (Eval.exec (f _) s).2
      exact ⟨t, exec_mapM_cons.mpr ⟨_, _, _, Prod.ext (hfirst s trivial).1 rfl, ht, rfl⟩⟩

namespace Query

variable {cat : Catalog} {l : Lambda} {op : AggregateOp} {rows vs : List Value}

/-- The value of an expression for a row. -/
def rowValue (cat : Catalog) (l : Lambda) (row : Value) : Value := keyValue cat ⟨l, true⟩ row

theorem rowValue_of_mapM (h : (rows.mapM fun row => cat.evalLambda l [row]) = .ok vs) :
    vs = rows.map (rowValue cat l) ∧ ∀ row ∈ rows, cat.evalLambda l [row] = .ok (rowValue cat l row) := by
  have hvalues := mapM_eq_ok.mp h
  clear h
  induction hvalues with
  | nil => simp
  | cons hv _ ih =>
      have hfirst : rowValue cat l _ = _ := congrArg (fun r => r.toOption.getD .null) hv
      obtain ⟨rfl, hrows⟩ := ih
      refine ⟨by rw [List.map_cons, hfirst]; rfl, List.forall_mem_cons.mpr ⟨?_, hrows⟩⟩
      rw [hfirst, hv]
      rfl

/-- A key orders rows as an extreme prefers its values. -/
theorem rowOrder_preferred (hop : op = .min ∨ op = .max) :
    rowOrder cat Value.order [⟨l, op = .min⟩] = fun a b => (rowValue cat l a).preferred op (rowValue cat l b) := by
  funext a b
  have hthen : ∀ o : Ordering, o.then .eq = o := by decide
  rcases hop with rfl | rfl
  · exact hthen _
  · exact (hthen _).trans (Value.order_swap _ _).symm

theorem preferred_null {v : Value} (hv : v.isNull = false) : Value.preferred .max .null v = .gt := by
  have hne : v ≠ .null := by
    rintro rfl
    cases hv
  have hlt : Value.rank .null < v.rank := Value.rank_pos hne
  show v.order .null = .gt
  rw [Value.order_swap, Value.order_of_rank_lt hlt]
  rfl

/-- An ordering by a key puts the rows without a value first, or last if it is a descending one, and of the others one
with the first value. -/
theorem sorted_extreme (hop : op = .min ∨ op = .max) (hvalues : (rows.mapM fun row => cat.evalLambda l [row]) = .ok vs)
    (hranked : vs.Pairwise Value.Ranked) (hsome : ∃ v ∈ vs, v.isNull = false) :
    ∃ nulls row later, sorted cat [⟨l, op = .min⟩] rows = .ok (nulls ++ row :: later) ∧
      (∀ r ∈ nulls, cat.evalLambda l [r] = .ok .null) ∧ cat.evalLambda l [row] = .ok (rowValue cat l row) ∧
      IsFirst (Value.preferred op) (Aggregate.present vs) (rowValue cat l row) ∧ (op = .max → nulls = []) := by
  obtain ⟨rfl, hrows⟩ := rowValue_of_mapM hvalues
  have hkeys : ∀ key ∈ [(⟨l, op = .min⟩ : SortKey)], ∀ row ∈ rows,
      cat.evalLambda key.selector [row] = .ok (keyValue cat key row) := by
    intro key hkey
    obtain rfl := List.mem_singleton.mp hkey
    exact hrows
  have hpairs : rows.Pairwise (Ranked cat [⟨l, op = .min⟩]) := by
    refine (List.pairwise_map.mp hranked).imp fun hab key hkey => ?_
    obtain rfl := List.mem_singleton.mp hkey
    exact hab
  obtain ⟨out, hsorted, hstable⟩ := sorted_of_ranked hkeys hpairs
  have hpresent : Aggregate.present (rows.map (rowValue cat l)) =
      (rows.filter fun row => !(rowValue cat l row).isNull).map (rowValue cat l) := List.filter_map
  have hfiltered := hstable.filter fun row => !(rowValue cat l row).isNull
  cases hout : out.filter fun row => !(rowValue cat l row).isNull with
  | nil =>
      obtain ⟨v, hv, hnull⟩ := hsome
      obtain ⟨row, hrow, rfl⟩ := List.mem_map.mp hv
      have hmem := List.filter_eq_nil_iff.mp hout row (hstable.perm.mem_iff.mpr hrow)
      simp [hnull] at hmem
  | cons row later =>
      rw [hout] at hfiltered
      have hfirst := hfiltered.isFirst
      rw [rowOrder_preferred hop] at hfirst
      obtain ⟨nulls, later, rfl, hnulls, hrow, -⟩ := List.filter_eq_cons_iff.mp hout
      have hnull : ∀ r ∈ nulls, rowValue cat l r = .null := by
        intro r hr
        have hr := hnulls r hr
        cases hv : rowValue cat l r with
        | null => rfl
        | _ => simp [hv, Value.isNull] at hr
      have hmem : ∀ r ∈ nulls ++ row :: later, r ∈ rows := fun r hr => hstable.perm.mem_iff.mp hr
      refine ⟨nulls, row, later, hsorted, fun r hr => ?_, hrows row (hmem row (by simp)), ?_, ?_⟩
      · rw [hrows r (hmem r (List.mem_append_left _ hr)), hnull r hr]
      · rw [hpresent]
        exact hfirst.map
      · rintro rfl
        cases nulls with
        | nil => rfl
        | cons r nulls =>
            have hle := (List.pairwise_cons.mp hstable.ordered).1 row (by simp)
            rw [rowOrder_preferred hop] at hle
            have hgt : (rowValue cat l r).preferred .max (rowValue cat l row) = .gt := by
              rw [hnull r List.mem_cons_self]
              exact preferred_null (by simpa using hrow)
            exact absurd hgt hle

/-- The aggregate over the list of the rows gives the first value. -/
theorem evalLambda_extreme (hop : op = .min ∨ op = .max) (hl : l.Disciplined) (hone : l.params.length = 1)
    (hvalues : (rows.mapM fun row => cat.evalLambda l [row]) = .ok vs) (hranked : vs.Pairwise Value.Ranked)
    {v : Value} (hfirst : IsFirst (Value.preferred op) (Aggregate.present vs) v) (element ty : Ty) (slots : Nat) :
    cat.evalLambda (l.aggregated element ty op slots) [.list rows] = .ok v := by
  refine evalLambda_aggregated cat element ty op l slots fun s _ => ⟨?_, trivial⟩
  have hanswers : List.Forall₂ (fun row v => Answers (fun _ => True) (cat.itemwise l.body row) (.ok v)) rows vs := by
    refine (mapM_eq_ok.mp hvalues).imp fun row v hv => ?_
    rw [← hv]
    exact hl.answers_itemwise cat hone row
  obtain ⟨t, hselect⟩ := Aggregate.exec_mapM_of_answers hanswers s
  rcases Aggregate.exec_extreme hop hselect (hranked.filter _) (some l.body.ty) ty with ⟨hnil, -⟩ | ⟨w, hw, hrun⟩
  · rw [hnil] at hfirst
    cases hfirst.mem
  · rw [hw.unique hfirst] at hrun
    exact congrArg Prod.fst hrun

theorem pairwise_ranked (hexact : ∀ v ∈ vs, v.isFraction = false)
    (hcomparable : vs.Pairwise fun a b => ∃ o, a.compare b = .ok o) : vs.Pairwise Value.Ranked :=
  hcomparable.imp_of_mem fun ha hb hab => Value.ranked_of_compare (hexact _ ha) (hexact _ hb) hab

/-- The aggregate of a key over the list of the rows is the key of the first row with one after ordering them by it,
forward for the least and backward for the greatest. -/
theorem orderBy_extreme (hop : op = .min ∨ op = .max) {env : Environment} {q : Query} {key : String}
    {args : List Argument} (hwithin : env.CompilesWithin (maxDepth - 1) [⟨none, q.element⟩] none key args l)
    (hvalues : (q.rows.mapM fun row => env.catalog.evalLambda l [row]) = .ok vs) (hranked : vs.Pairwise Value.Ranked)
    (hsome : ∃ v ∈ vs, v.isNull = false) :
    ∃ extreme nulls row later v,
      env.Compiles [⟨none, .list q.element⟩] none (Query.aggregated op.name key) args extreme ∧
      env.catalog.evalLambda extreme [.list q.rows] = .ok v ∧ v.isNull = false ∧
      (∀ shapes, ((q.orderBy env (Query.directed key (op = .min)) args).exec shapes).1 =
        .ok ⟨q.element, nulls ++ row :: later⟩) ∧
      (∀ r ∈ nulls, env.catalog.evalLambda l [r] = .ok .null) ∧ env.catalog.evalLambda l [row] = .ok v ∧
      (op = .max → nulls = []) := by
  have hcompiles : env.Compiles [⟨none, q.element⟩] none key args l := hwithin.mono (by decide)
  have hone : l.params.length = 1 := by
    obtain ⟨hparams, -⟩ := hcompiles.derives
    rw [hparams]
    rfl
  obtain ⟨nulls, row, later, hsorted, hnulls, hrow, hfirst, hlast⟩ := sorted_extreme hop hvalues hranked hsome
  have htyped := Typing.aggregate_extreme env.catalog hop (.param (.list q.element) 0) 1 (l.body.mapSlots (raise 0 1))
  refine ⟨_, nulls, row, later, _, hwithin.aggregate htyped,
    evalLambda_extreme hop hcompiles.disciplined hone hvalues hranked hfirst _ _ _, ?_, ?_, hnulls, hrow, hlast⟩
  · have hpresent := (List.mem_filter.mp hfirst.mem).2
    simpa using hpresent
  · intro shapes
    rw [exec_orderBy (hcompiles.ordering _), hsorted]
    rfl

open Aggregate in
/-- The least of the values that are selected is the first one that is no greater than every other one, and the greatest
the first one that is no less; where none is present the result is absent if its type admits that, and otherwise there
is a failure. So, for a key of rows that has a value for some row, the least key over the list of the rows is that of
the first row with a value after ordering the rows by the key, and the greatest one that of the first row after ordering
them by the key backward. -/
theorem extremes_agree_with_sorting :
    (∀ {σ : Type} {op : AggregateOp}, op = .min ∨ op = .max →
      ∀ {items vs : List Value} {select : Value → Selecting σ Value} {s t : σ} (body : Option Ty) (result : Ty),
        Selecting.exec (items.mapM select) s = (.ok vs, t) → (∀ v ∈ vs, v.isFraction = false) →
        (vs.Pairwise fun a b => ∃ o, a.compare b = .ok o) →
        let run := Selecting.exec (apply op items body result select) s
        (present vs = [] →
          run = (if result.isNullable || !result.isValueType then .ok .null else .error .emptySequence, t)) ∧
        (present vs ≠ [] → ∃ v, FirstExtreme op (present vs) v ∧ run = (.ok v, t))) ∧
    ∀ {env : Environment} {q : Query} {key : String} {args : List Argument} {l : Lambda} {vs : List Value},
      env.CompilesWithin (maxDepth - 1) [⟨none, q.element⟩] none key args l →
      (q.rows.mapM fun row => env.catalog.evalLambda l [row]) = .ok vs → (∀ v ∈ vs, v.isFraction = false) →
      (vs.Pairwise fun a b => ∃ o, a.compare b = .ok o) → (∃ v ∈ vs, v.isNull = false) →
      ∃ (least greatest : Lambda) (v w : Value),
        env.Compiles [⟨none, .list q.element⟩] none ("it.Min(" ++ key ++ ")") args least ∧
        env.Compiles [⟨none, .list q.element⟩] none ("it.Max(" ++ key ++ ")") args greatest ∧
        env.catalog.evalLambda least [.list q.rows] = .ok v ∧
        env.catalog.evalLambda greatest [.list q.rows] = .ok w ∧ v.isNull = false ∧ w.isNull = false ∧
        (∃ nulls row later, (∀ shapes,
            ((q.orderBy env key args).exec shapes).1 = .ok ⟨q.element, nulls ++ row :: later⟩) ∧
          (∀ r ∈ nulls, env.catalog.evalLambda l [r] = .ok .null) ∧ env.catalog.evalLambda l [row] = .ok v) ∧
        ∃ row later, (∀ shapes,
            ((q.orderBy env (key ++ " desc") args).exec shapes).1 = .ok ⟨q.element, row :: later⟩) ∧
          env.catalog.evalLambda l [row] = .ok w := by
  constructor
  · intro σ op hop items vs select s t body result hselect hexact hcomparable run
    have hranked := (pairwise_ranked hexact hcomparable).filter fun v => !v.isNull
    rcases exec_extreme hop hselect hranked body result with ⟨hnil, hrun⟩ | ⟨v, hfirst, hrun⟩
    · exact ⟨fun _ => hrun, fun hne => absurd hnil hne⟩
    · refine ⟨fun hnil => ?_, fun _ => ⟨v, firstExtreme_of_isFirst hfirst hranked, hrun⟩⟩
      rw [hnil] at hfirst
      cases hfirst.mem
  · intro env q key args l vs hwithin hvalues hexact hcomparable hsome
    have hranked := pairwise_ranked hexact hcomparable
    obtain ⟨least, nulls, row, later, v, hleast, hv, hpresent, hup, hnulls, hrow, -⟩ :=
      orderBy_extreme (Or.inl rfl) hwithin hvalues hranked hsome
    obtain ⟨greatest, nulls', row', later', w, hgreatest, hw, hpresent', hdown, -, hrow', hlast⟩ :=
      orderBy_extreme (Or.inr rfl) hwithin hvalues hranked hsome
    obtain rfl := hlast rfl
    exact ⟨least, greatest, v, w, hleast, hgreatest, hv, hw, hpresent, hpresent',
      ⟨nulls, row, later, hup, hnulls, hrow⟩, row', later', hdown, hrow'⟩

/-- Prices, of which one is absent and the two least are the same number in different forms. -/
def prices : List Value :=
  [.decimal ⟨false, 20, 1, by decide, by decide⟩, .null, .decimal ⟨false, 150, 2, by decide, by decide⟩,
    .decimal ⟨false, 15, 1, by decide, by decide⟩]

open Aggregate in
/-- The least of the prices is the first of the two, after four calls of the selector; and ordering the prices agrees.
-/
theorem extremes_agree_with_sorting_prices :
    let select : Value → Selecting Nat Value := fun v => do
      modify (· + 1)
      return v
    let q : Query := ⟨.nullable .decimal, prices⟩
    FirstExtreme .min (present prices) (.decimal ⟨false, 150, 2, by decide, by decide⟩) ∧
    Selecting.exec (apply .min prices none (.nullable .decimal) select) 0 =
      (.ok (.decimal ⟨false, 150, 2, by decide, by decide⟩), 4) ∧
    ∃ (l least greatest : Lambda) (v w : Value),
      Environment.cells.CompilesWithin (maxDepth - 1) [⟨none, q.element⟩] none "it" [] l ∧
      Environment.cells.Compiles [⟨none, .list q.element⟩] none "it.Min(it)" [] least ∧
      Environment.cells.Compiles [⟨none, .list q.element⟩] none "it.Max(it)" [] greatest ∧
      Catalog.cells.evalLambda least [.list q.rows] = .ok v ∧
      Catalog.cells.evalLambda greatest [.list q.rows] = .ok w ∧
      (∃ nulls row later, (∀ shapes,
          ((q.orderBy .cells "it" []).exec shapes).1 = .ok ⟨q.element, nulls ++ row :: later⟩) ∧
        (∀ r ∈ nulls, Catalog.cells.evalLambda l [r] = .ok .null) ∧ Catalog.cells.evalLambda l [row] = .ok v) ∧
      ∃ row later, (∀ shapes, ((q.orderBy .cells "it desc" []).exec shapes).1 = .ok ⟨q.element, row :: later⟩) ∧
        Catalog.cells.evalLambda l [row] = .ok w := by
  intro select q
  obtain ⟨hextremes, hsorting⟩ := extremes_agree_with_sorting
  have hselect : Selecting.exec (prices.mapM select) 0 = (.ok prices, 4) := rfl
  have hvalues : (∀ v ∈ prices, v.isFraction = false) ∧
      prices.Pairwise fun a b => (a.compare b).toOption.isSome := by decide
  have hleast : Selecting.exec (apply .min prices none (.nullable .decimal) select) 0 =
    (.ok (.decimal ⟨false, 150, 2, by decide, by decide⟩), 4) := rfl
  obtain ⟨v, hfirst, hrun⟩ := (hextremes (Or.inl rfl) none (.nullable .decimal) hselect hvalues.1
    (hvalues.2.imp toOption_isSome.mp)).2 (by decide)
  obtain rfl : v = _ := Except.ok.inj (congrArg Prod.fst (hrun.symm.trans hleast))
  have hkey : ((Environment.cells.compileWithin (maxDepth - 1) [⟨none, q.element⟩] none "it" []).exec
      .empty).1.toOption.any (fun l => (q.rows.mapM fun row => Catalog.cells.evalLambda l [row]).toOption.any fun vs =>
        (∀ v ∈ vs, v.isFraction = false) ∧ (vs.Pairwise fun a b => (a.compare b).toOption.isSome) ∧
          ∃ v ∈ vs, v.isNull = false) = true := by
    decide +kernel
  obtain ⟨l, hl, hkey⟩ := toOption_any.mp hkey
  obtain ⟨vs, hvs, hkey⟩ := toOption_any.mp hkey
  obtain ⟨hexact, hcomparable, hsome⟩ := of_decide_eq_true hkey
  have hwithin : Environment.cells.CompilesWithin (maxDepth - 1) [⟨none, q.element⟩] none "it" [] l := ⟨.empty, hl⟩
  obtain ⟨least, greatest, v, w, hmin, hmax, hv, hw, -, -, hup, hdown⟩ :=
    hsorting hwithin hvs hexact (hcomparable.imp toOption_isSome.mp) hsome
  exact ⟨hfirst, hleast, l, least, greatest, v, w, hwithin, hmin, hmax, hv, hw, hup, hdown⟩

end Query

end RowQuery
