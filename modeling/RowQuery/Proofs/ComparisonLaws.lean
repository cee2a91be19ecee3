import RowQuery.Proofs.ValueOrder

/-!
The laws of comparing values. For values that are no binary fractions the comparison is a total preorder as
far as it succeeds: it can be turned round, it goes on from one value to the next across numbers of all kinds,
and the absent value comes first. It calls two values equal exactly if they are equal as `==` sees them. That
equality is an equivalence of the values without binary fractions inside them.
-/

namespace RowQuery.Value

variable {a b c : Value} {o p : Ordering}

/-- The order of two values the other way round. -/
theorem compare_swap (ha : a.isFraction = false) (hb : b.isFraction = false) (h : a.compare b = .ok o) :
    b.compare a = .ok o.swap := by
  obtain ⟨o', h'⟩ := exists_compare_comm ⟨o, h⟩
  rw [h', compare_eq_order hb ha h', compare_eq_order ha hb h, order_swap b a]

theorem compare_error_comm : (∃ e, b.compare a = .error e) ↔ ∃ e, a.compare b = .error e := by
  have hfails : ∀ a b : Value, (∃ e, a.compare b = .error e) ↔ ¬∃ o, a.compare b = .ok o := by
    intro a b
    cases a.compare b <;> simp
  rw [hfails, hfails]
  exact not_congr ⟨exists_compare_comm, exists_compare_comm⟩

theorem compare_null (ha : a ≠ .null) : compare .null a = .ok .lt := by
  cases a with
  | null => exact absurd rfl ha
  | _ => rfl

/-- Two values that can be compared with a third one between them can be compared: what is not below the
absent value is absent, and all others have their places on one line. -/
theorem exists_compare_trans (hab : a.compare b = .ok o) (hbc : b.compare c = .ok p) (ho : o ≠ .gt)
    (hp : p ≠ .gt) : ∃ q, a.compare c = .ok q := by
  have hnull : ∀ {a b : Value} {o : Ordering}, a.compare b = .ok o → o ≠ .gt → b = .null → a = .null := by
    rintro a b o h ho rfl
    cases Compares.of_compare h with
    | absent => rfl
    | below hb => exact absurd rfl hb
    | above => exact absurd rfl ho
    | numbers _ hn => cases hn
  refine (exists_compare_iff a c).mpr ?_
  rcases (exists_compare_iff a b).mp ⟨o, hab⟩ with ha | hb | ⟨hrank, hsix⟩
  · exact Or.inl ha
  · exact Or.inl (hnull hab ho hb)
  · rcases (exists_compare_iff b c).mp ⟨p, hbc⟩ with hb | hc | ⟨hrank', -⟩
    · exact Or.inl (hnull hab ho hb)
    · exact Or.inl (hnull hab ho (hnull hbc hp hc))
    · exact Or.inr (Or.inr ⟨hrank.trans hrank', hsix⟩)

/-- From one value to the next, upward. -/
theorem compare_trans (ha : a.isFraction = false) (hb : b.isFraction = false) (hc : c.isFraction = false)
    (hab : a.compare b = .ok o) (hbc : b.compare c = .ok p) (ho : o ≠ .gt) (hp : p ≠ .gt) :
    ∃ q, a.compare c = .ok q ∧ q ≠ .gt ∧ (o = .lt ∨ p = .lt → q = .lt) := by
  obtain ⟨q, hac⟩ := exists_compare_trans hab hbc ho hp
  have horder := compare_eq_order ha hb hab
  have horder' := compare_eq_order hb hc hbc
  have hle : (a.order b).isLE := by rwa [← horder, Ordering.isLE_iff_ne_gt]
  have hle' : (b.order c).isLE := by rwa [← horder', Ordering.isLE_iff_ne_gt]
  refine ⟨q, hac, ?_, ?_⟩
  · rw [compare_eq_order ha hc hac]
    exact Ordering.isLE_iff_ne_gt.mp (Std.TransCmp.isLE_trans hle hle')
  · rw [compare_eq_order ha hc hac, horder, horder']
    rintro (hlt | hlt)
    · exact Std.TransCmp.lt_of_lt_of_isLE hlt hle'
    · exact Std.TransCmp.lt_of_isLE_of_lt hle hlt

/-- Where values can be compared, they compare as equal exactly if they are equal. -/
theorem compare_eq_iff_equal (ha : a.isFraction = false) (hb : b.isFraction = false) (h : a.compare b = .ok o) :
    o = .eq ↔ a.equal b := by
  cases Compares.of_compare h with
  | absent => exact iff_of_true rfl rfl
  | below hnull =>
      refine iff_of_false (by decide) ?_
      cases b with
      | null => exact absurd rfl hnull
      | _ => exact Bool.false_ne_true
  | above hnull =>
      refine iff_of_false (by decide) ?_
      cases a with
      | null => exact absurd rfl hnull
      | _ => exact Bool.false_ne_true
  | strings s t => exact Std.LawfulEqCmp.compare_eq_iff_eq.trans (beq_iff_eq (a := s)).symm
  | booleans p q => cases p <;> cases q <;> decide
  | moments t u => exact Int.compare_eq_eq.trans (beq_iff_eq (a := t.nanos)).symm
  | lengths t u => exact Int.compare_eq_eq.trans (beq_iff_eq (a := t.nanos)).symm
  | numbers hm hn => rw [equal_eq_compare hm hn (isExact_of_ofValue? ha hm), beq_iff_eq]

/-- Comparing values that are no binary fractions is a total preorder as far as it succeeds, with the absent value
below all others, and agrees with equality; and equality is an equivalence of the values without binary fractions
at any depth. -/
theorem compare_preorder :
    (∀ a : Value, a.isFraction = false → ∀ o, a.compare a = .ok o → o = .eq) ∧
    (∀ a b : Value, a.isFraction = false → b.isFraction = false →
      ((∃ e, b.compare a = .error e) ↔ ∃ e, a.compare b = .error e) ∧
      ∀ o, a.compare b = .ok o → b.compare a = .ok o.swap) ∧
    (∀ a b c : Value, a.isFraction = false → b.isFraction = false → c.isFraction = false →
      ∀ o p, a.compare b = .ok o → b.compare c = .ok p → o ≠ .gt → p ≠ .gt →
        ∃ q, a.compare c = .ok q ∧ q ≠ .gt ∧ (o = .lt ∨ p = .lt → q = .lt)) ∧
    (∀ a : Value, a ≠ .null → compare .null a = .ok .lt) ∧
    (∀ a b : Value, a.isFraction = false → b.isFraction = false →
      ∀ o, a.compare b = .ok o → (o = .eq ↔ a.equal b)) ∧
    Equivalence fun a b : { v : Value // v.floatFree } => a.val.equal b.val := by
  refine ⟨?_, ?_, ?_, fun a => compare_null, fun a b ha hb o => compare_eq_iff_equal ha hb, ?_⟩
  · intro a ha o h
    rw [compare_eq_order ha ha h, order_self]
  · exact fun a b ha hb => ⟨compare_error_comm, fun o => compare_swap ha hb⟩
  · exact fun a b c ha hb hc o p => compare_trans ha hb hc
  · exact ⟨fun a => equal_self a.property, fun {a b} => equal_symm a.property b.property,
      fun {a b c} => equal_trans a.property b.property c.property⟩

/-- From an integer to a member of an enumeration with the same number, and on to a decimal. -/
theorem compare_preorder_mixed :
    let two : Value := .int32 2
    let member : Value := .enum ⟨0, "Level", []⟩ (.wrap .int64 2)
    let more : Value := .decimal ⟨false, 250, 2, by decide, by decide⟩
    two.compare member = .ok .eq ∧ member.compare more = .ok .lt ∧ two.compare more = .ok .lt ∧
      two.equal member ∧ more.compare two = .ok .gt := by
  intro two member more
  have hmember : two.compare member = .ok .eq := rfl
  have hmore : member.compare more = .ok .lt := rfl
  obtain ⟨-, hswap, htrans, -, hequal, -⟩ := compare_preorder
  obtain ⟨q, hq, -, hlt⟩ := htrans two member more rfl rfl rfl _ _ hmember hmore (by decide) (by decide)
  rw [hlt (Or.inr rfl)] at hq
  exact ⟨hmember, hmore, hq, (hequal two member rfl rfl _ hmember).mp rfl, (hswap two more rfl rfl).2 _ hq⟩

end RowQuery.Value
