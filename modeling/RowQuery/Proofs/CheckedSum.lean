import RowQuery.Proofs.Selection

/-!
Sums of integers. A sum is added up item by item and never wraps around: it is exact where every sum on the way
is in the range of its type, and otherwise it ends at the first item at which the selector fails or the next
sum leaves the range.
-/

namespace RowQuery

/-- The kinds of integers that are added up. -/
def IntKind.Summed (k : IntKind) : Prop := k = .int32 ∨ k = .int64

namespace Aggregate

open Selecting

/-- The exact sum of the integers among some values. -/
def total : List Value → Int
  | [] => 0
  | .int _ n :: vs => n.val + total vs
  | _ :: vs => total vs

/-- Every sum of the first few terms is in the range. -/
def InRange (k : IntKind) (terms : List Value) : Prop := ∀ few, few <+: terms → k.Holds (total few)

/-- The selector succeeds on the items, and the sum never leaves the range. -/
def AddsUp {σ : Type} (k : IntKind) (select : Value → Selecting σ Value) (items : List Value) (s : σ)
    (vs : List Value) (t : σ) : Prop :=
  exec (items.mapM select) s = (.ok vs, t) ∧ InRange k (present vs)

section

variable {k : IntKind}

theorem zero_of_summed (hk : k.Summed) {ty : Ty} (hty : ty.underlying = .int k) :
    ∃ w : Word k, ty.zero = .int k w ∧ w.val = 0 := by
  unfold Ty.zero
  rw [hty]
  rcases hk with rfl | rfl
  · exact ⟨Word.wrap .int32 0, rfl, by decide⟩
  · exact ⟨Word.wrap .int64 0, rfl, by decide⟩

/-- One more term is added exactly, or the sum is refused. -/
theorem addTerm_eq (hk : k.Summed) (a b : Word k) :
    addTerm (.int k a) (.int k b) =
      if h : k.Holds (a.val + b.val) then .ok (.int k ⟨a.val + b.val, h⟩) else .error (.overflow .sum) := by
  by_cases h : k.Holds (a.val + b.val)
  · rw [dif_pos h]
    rcases hk with rfl | rfl <;> simp [addTerm, Word.ofInt?, h]
  · rw [dif_neg h]
    rcases hk with rfl | rfl <;> simp [addTerm, Word.ofInt?, h]

/-- Terms are added up to their exact sum as long as no sum on the way leaves the range. -/
theorem foldlM_addTerm (hk : k.Summed) {terms : List Value} (hterms : ∀ v ∈ terms, ∃ n : Word k, v = .int k n)
    (a : Word k) (r : Value) :
    terms.foldlM addTerm (.int k a) = .ok r ↔
      (∀ few, few <+: terms → k.Holds (a.val + total few)) ∧
        ∃ w : Word k, r = .int k w ∧ w.val = a.val + total terms := by
  induction terms generalizing a with
  | nil =>
      constructor
      · intro h
        cases h
        refine ⟨fun few hfew => ?_, a, rfl, (Int.add_zero _).symm⟩
        rw [List.prefix_nil.mp hfew]
        exact (Int.add_zero a.val).symm ▸ a.holds
      · rintro ⟨-, w, rfl, hw⟩
        have hsame : w = a := by
          rcases w with ⟨n, hn⟩
          simp only [total, Int.add_zero] at hw
          subst hw
          rfl
        rw [hsame]
        rfl
  | cons v terms ih =>
      obtain ⟨⟨b, rfl⟩, hlater⟩ := List.forall_mem_cons.mp hterms
      rw [List.foldlM_cons, addTerm_eq hk]
      by_cases hsum : k.Holds (a.val + b.val)
      · rw [dif_pos hsum]
        refine (ih hlater ⟨a.val + b.val, hsum⟩).trans (and_congr ⟨fun h few hfew => ?_, fun h few hfew => ?_⟩ ?_)
        · rcases List.prefix_cons_iff.mp hfew with rfl | ⟨more, rfl, hmore⟩
          · exact (Int.add_zero a.val).symm ▸ a.holds
          · rw [total, ← Int.add_assoc]
            exact h more hmore
        · have hmore := h (.int k b :: few) (List.cons_prefix_cons.mpr ⟨rfl, hfew⟩)
          rwa [total, ← Int.add_assoc] at hmore
        · rw [total, ← Int.add_assoc]
      · rw [dif_neg hsum]
        constructor
        · intro h
          cases h
        · rintro ⟨hall, -⟩
          have hfirst := hall [.int k b] (List.cons_prefix_cons.mpr ⟨rfl, List.nil_prefix⟩)
          rw [total, total, Int.add_zero] at hfirst
          exact absurd hfirst hsum

/-- The terms of a sum are added up exactly where no sum on the way leaves the range. -/
theorem foldlM_addTerm_zero (hk : k.Summed) {ty : Ty} (hty : ty.underlying = .int k) {vs : List Value}
    (hvs : ∀ v ∈ vs, v = .null ∨ ∃ n : Word k, v = .int k n) (r : Value) :
    (present vs).foldlM addTerm ty.zero = .ok r ↔
      InRange k (present vs) ∧ ∃ w : Word k, r = .int k w ∧ w.val = total (present vs) := by
  obtain ⟨zero, hzero, hval⟩ := zero_of_summed hk hty
  have hterms : ∀ v ∈ present vs, ∃ n : Word k, v = .int k n := by
    intro v hv
    obtain ⟨hmem, hpresent⟩ := List.mem_filter.mp hv
    rcases hvs v hmem with rfl | hn
    · cases hpresent
    · exact hn
  rw [hzero, foldlM_addTerm hk hterms, hval]
  simp only [Int.zero_add, InRange]

end

/-- What a selector gives for all items, it gives for one of them. -/
theorem forall_selected {σ : Type} {select : Value → Selecting σ Value} {P : Value → Prop} {items : List Value}
    (h : ∀ item ∈ items, ∀ s v t, exec (select item) s = (.ok v, t) → P v) {s t : σ} {vs : List Value}
    (hvs : exec (items.mapM select) s = (.ok vs, t)) : ∀ v ∈ vs, P v := by
  induction items generalizing s vs with
  | nil =>
      cases hvs
      exact List.forall_mem_nil P
  | cons item items ih =>
      obtain ⟨hitem, hitems⟩ := List.forall_mem_cons.mp h
      obtain ⟨v, later, u, hv, hlater, rfl⟩ := exec_mapM_cons.mp hvs
      exact List.forall_mem_cons.mpr ⟨hitem s v u hv, ih hitems hlater⟩

theorem apply_sum {σ : Type} (items : List Value) (body : Option Ty) (result : Ty)
    (select : Value → Selecting σ Value) :
    apply .sum items body result select = items.foldlM (gather addTerm select) (body.getD result).zero := rfl

/-- Sums never wrap around. Where the selector succeeds on all items and every sum on the way is in the range of
the type, the result is the exact sum; otherwise it is the error of the first item at which the selector fails or
the sum leaves the range, and the selector is called on no item after it. -/
theorem sum_exact_or_first_failure {σ : Type} {k : IntKind} (hk : k.Summed) {body : Option Ty} {result : Ty}
    (hbody : (body.getD result).underlying = .int k) {select : Value → Selecting σ Value} {items : List Value}
    (hselect : ∀ item ∈ items, ∀ s v t, exec (select item) s = (.ok v, t) →
      v = .null ∨ ∃ n : Word k, v = .int k n) (s : σ) :
    (∀ vs t, AddsUp k select items s vs t →
      ∃ w : Word k, w.val = total (present vs) ∧
        exec (apply .sum items body result select) s = (.ok (.int k w), t)) ∧
    ((¬∃ vs t, AddsUp k select items s vs t) →
      ∃ before item after vs t u, items = before ++ item :: after ∧ AddsUp k select before s vs t ∧
        ((∃ e, exec (select item) t = (.error e, u) ∧
            exec (apply .sum items body result select) s = (.error e, u)) ∨
          ∃ n : Word k, exec (select item) t = (.ok (.int k n), u) ∧ ¬k.Holds (total (present vs) + n.val) ∧
            exec (apply .sum items body result select) s = (.error (.overflow .sum), u))) := by
  rw [apply_sum]
  have hfold : ∀ {first vs : List Value} {t : σ}, (∀ item ∈ first, item ∈ items) →
      exec (first.mapM select) s = (.ok vs, t) → ∀ r, _ := fun hfirst hvs =>
    foldlM_addTerm_zero hk hbody (forall_selected (fun item h => hselect item (hfirst item h)) hvs)
  constructor
  · rintro vs t ⟨hvs, hrange⟩
    refine ⟨⟨total (present vs), hrange _ (List.prefix_refl _)⟩, rfl, ?_⟩
    exact exec_foldlM_gather hvs ((hfold (fun _ h => h) hvs _).mpr ⟨hrange, _, rfl, rfl⟩)
  · intro hnot
    rcases exec_foldlM_gather_cases addTerm select items s (body.getD result).zero with
      ⟨vs, t, r, hvs, hr, -⟩ | ⟨before, item, after, vs, t, r, u, e, rfl, hvs, hr, hcause, herror⟩
    · exact absurd ⟨vs, t, hvs, ((hfold (fun _ h => h) hvs r).mp hr).1⟩ hnot
    · obtain ⟨hrange, w, rfl, hw⟩ := (hfold (fun _ h => List.mem_append_left _ h) hvs r).mp hr
      refine ⟨before, item, after, vs, t, u, rfl, ⟨hvs, hrange⟩, ?_⟩
      rcases hcause with hfails | ⟨v, hv, hpresent, hrefused⟩
      · exact Or.inl ⟨e, hfails, herror⟩
      · rcases hselect item (by simp) t v u hv with rfl | ⟨n, rfl⟩
        · cases hpresent
        · rw [addTerm_eq hk, hw] at hrefused
          by_cases hsum : k.Holds (total (present vs) + n.val)
          · rw [dif_pos hsum] at hrefused
            cases hrefused
          · rw [dif_neg hsum] at hrefused
            cases hrefused
            exact Or.inr ⟨n, hv, hsum, herror⟩

/-- A selector that gives the items themselves and records them. -/
def recorded (item : Value) : Selecting (List Value) Value := do
  modify (· ++ [item])
  return item

/-- Integers whose sum leaves the range at the third item, and comes back into it at the fourth. -/
def overflowing : List Value := [.int32 2147483647, .null, .int32 1, .int32 (-1)]

theorem sum_exact_or_first_failure_overflowing :
    (¬∃ vs t, AddsUp .int32 recorded overflowing [] vs t) ∧
      ∃ before item after vs t u, overflowing = before ++ item :: after ∧ AddsUp .int32 recorded before [] vs t ∧
        ((∃ e, exec (recorded item) t = (.error e, u) ∧
            exec (apply .sum overflowing (some .int32) .int32 recorded) [] = (.error e, u)) ∨
          ∃ n : Word .int32, exec (recorded item) t = (.ok (.int .int32 n), u) ∧
            ¬IntKind.int32.Holds (total (present vs) + n.val) ∧
            exec (apply .sum overflowing (some .int32) .int32 recorded) [] = (.error (.overflow .sum), u)) := by
  have hnot : ¬∃ vs t, AddsUp .int32 recorded overflowing [] vs t := by
    rintro ⟨vs, t, hvs, hrange⟩
    cases hvs
    have hsum := hrange [.int32 2147483647, .int32 1] ⟨[.int32 (-1)], rfl⟩
    exact absurd hsum (by decide)
  have hitems : ∀ item ∈ overflowing, item = .null ∨ ∃ n : Word .int32, item = .int .int32 n := by
    simp [overflowing, Value.int32]
  refine ⟨hnot, (sum_exact_or_first_failure (Or.inl rfl) rfl ?_ []).2 hnot⟩
  intro item hitem s v t hrun
  cases hrun
  exact hitems item hitem

end Aggregate

end RowQuery
