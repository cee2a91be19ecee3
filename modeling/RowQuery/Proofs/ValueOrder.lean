import RowQuery.Comparison

/-!
The order and the equality of values without binary fractions. Numbers of all kinds have a place on one
line, and what else can be compared has a line of its own, so the comparison is a total preorder wherever it
succeeds. Equality is an equivalence; inside objects, lists and groups it goes down to the parts.
-/

namespace RowQuery

namespace Value

mutual

/-- Whether no binary fraction is in a value. -/
def floatFree : Value → Bool
  | .single _ | .double _ => false
  | .object _ fields items => floatFreeAll fields && floatFreeAll items
  | .list items => floatFreeAll items
  | .group key items => floatFree key && floatFreeAll items
  | _ => true

def floatFreeAll : List Value → Bool
  | [] => true
  | v :: vs => floatFree v && floatFreeAll vs

end

/-- Whether a value is a binary fraction itself. -/
def isFraction : Value → Bool
  | .single _ | .double _ => true
  | _ => false

theorem isFraction_of_floatFree {v : Value} (h : v.floatFree) : v.isFraction = false := by
  cases v <;> first | rfl | cases h

end Value

/-! ### Numbers -/

namespace Number

/-- An exact number, counted in units of the last place that a decimal may have. -/
def units : Number → Int
  | int n => n * 10 ^ Decimal.maxScale
  | decimal d => d.rescaled Decimal.maxScale
  | float _ => 0

/-- Whether a number is not a binary fraction. -/
def isExact : Number → Bool
  | float _ => false
  | _ => true

theorem compare_mul_right (a b : Int) {c : Int} (hc : 0 < c) : Ord.compare (a * c) (b * c) = Ord.compare a b := by
  rcases Int.lt_trichotomy a b with h | rfl | h
  · rw [Int.compare_eq_lt.mpr h, Int.compare_eq_lt.mpr (Int.mul_lt_mul_of_pos_right h hc)]
  · exact Std.ReflCmp.compare_self.trans Std.ReflCmp.compare_self.symm
  · rw [Int.compare_eq_gt.mpr h, Int.compare_eq_gt.mpr (Int.mul_lt_mul_of_pos_right h hc)]

theorem rescaled_rescaled (d : Decimal) {s t : Nat} (hs : d.scale ≤ s) (ht : s ≤ t) :
    d.rescaled t = d.rescaled s * 10 ^ (t - s) := by
  rw [Decimal.rescaled, Decimal.rescaled, Int.mul_assoc, ← Int.pow_add]
  congr 2
  omega

theorem compare_decimal (a b : Decimal) : a.compare b = Ord.compare (units (.decimal a)) (units (.decimal b)) := by
  have hmax : max a.scale b.scale ≤ Decimal.maxScale := Nat.max_le.mpr ⟨a.scale_le, b.scale_le⟩
  rw [Decimal.compare, units, units, rescaled_rescaled a (Nat.le_max_left _ b.scale) hmax,
    rescaled_rescaled b (Nat.le_max_right a.scale _) hmax, compare_mul_right _ _ (Int.pow_pos (by decide))]

theorem compareInt_eq (n : Int) (d : Decimal) :
    compareInt n d = Ord.compare (units (.int n)) (units (.decimal d)) := by
  have hpow : (10 : Int) ^ Decimal.maxScale = 10 ^ d.scale * 10 ^ (Decimal.maxScale - d.scale) := by
    rw [← Int.pow_add]
    congr 1
    have := d.scale_le
    omega
  rw [compareInt, units, units, Decimal.rescaled, hpow, ← Int.mul_assoc,
    compare_mul_right _ _ (Int.pow_pos (by decide))]

/-- Exact numbers are compared by their places on the line. -/
theorem compare_eq_units {m n : Number} (hm : m.isExact) (hn : n.isExact) :
    m.compare n = Ord.compare m.units n.units := by
  cases m with
  | float x => cases hm
  | int a =>
      cases n with
      | float y => cases hn
      | int b => exact (compare_mul_right a b (Int.pow_pos (by decide))).symm
      | decimal b => exact compareInt_eq a b
  | decimal a =>
      cases n with
      | float y => cases hn
      | int b =>
          show (compareInt b a).swap = _
          rw [compareInt_eq]
          exact Std.OrientedCmp.eq_swap.symm
      | decimal b => exact compare_decimal a b

end Number

/-! ### Order -/

namespace Value

/-- The line on which a value has its place. -/
def rank : Value → Nat
  | .null => 0
  | .string _ => 2
  | .boolean _ => 3
  | .dateTime _ => 4
  | .timeSpan _ => 5
  | .object .. | .list _ | .group .. => 6
  | _ => 1

/-- The place of a value that is counted. -/
def amount : Value → Int
  | .boolean b => if b then 1 else 0
  | .dateTime t => t.nanos
  | .timeSpan d => d.nanos
  | v => ((Number.ofValue? v).map Number.units).getD 0

/-- The place of a value that is spelled. -/
def wording : Value → String
  | .string s => s
  | _ => ""

/-- The total order behind the comparison: by line, then by place. -/
def order : Value → Value → Ordering :=
  compareLex (compareOn rank) (compareLex (compareOn amount) (compareOn wording))

instance : Std.TransCmp order :=
  inferInstanceAs (Std.TransCmp (compareLex (compareOn rank) (compareLex (compareOn amount) (compareOn wording))))

theorem isExact_of_ofValue? {v : Value} {m : Number} (hv : v.isFraction = false)
    (h : Number.ofValue? v = some m) : m.isExact := by
  cases v <;> cases h <;> first | rfl | cases hv

theorem rank_of_ofValue? {v : Value} {m : Number} (h : Number.ofValue? v = some m) :
    v.rank = 1 ∧ v.amount = m.units ∧ v.wording = "" := by
  cases v <;> cases h <;> exact ⟨rfl, rfl, rfl⟩

theorem order_of_rank_lt {a b : Value} (h : a.rank < b.rank) : a.order b = .lt := by
  rw [order, compareLex, compareOn, Nat.compare_eq_lt.mpr h]
  rfl

theorem order_swap (a b : Value) : a.order b = (b.order a).swap := Std.OrientedCmp.eq_swap

theorem order_self (a : Value) : a.order a = .eq := Std.ReflCmp.compare_self

/-- On one line, the place decides. -/
theorem order_of_rank_eq {a b : Value} (h : a.rank = b.rank) :
    a.order b = (Ord.compare a.amount b.amount).then (Ord.compare a.wording b.wording) := by
  rw [order, compareLex, compareOn, Nat.compare_eq_eq.mpr h]
  rfl

theorem rank_pos {a : Value} (h : a ≠ .null) : 0 < a.rank := by
  cases a with
  | null => exact absurd rfl h
  | _ => exact Nat.succ_pos _

/-- How two values can be compared, and with what result. -/
inductive Compares : Value → Value → Ordering → Prop
  | absent : Compares .null .null .eq
  | below {b : Value} (hb : b ≠ .null) : Compares .null b .lt
  | above {a : Value} (ha : a ≠ .null) : Compares a .null .gt
  | strings (s t : String) : Compares (.string s) (.string t) (Ord.compare s t)
  | booleans (p q : Bool) : Compares (.boolean p) (.boolean q) (Ord.compare p q)
  | moments (t u : DateTime) : Compares (.dateTime t) (.dateTime u) (Ord.compare t.nanos u.nanos)
  | lengths (t u : TimeSpan) : Compares (.timeSpan t) (.timeSpan u) (Ord.compare t.nanos u.nanos)
  | numbers {a b : Value} {m n : Number} (hm : Number.ofValue? a = some m) (hn : Number.ofValue? b = some n) :
      Compares a b (m.compare n)

theorem Compares.of_compare {a b : Value} {o : Ordering} (h : a.compare b = .ok o) : Compares a b o := by
  unfold compare at h
  split at h
  · cases h
    exact .absent
  · rename_i hb
    cases h
    exact .below hb
  · rename_i ha
    cases h
    exact .above ha
  · cases h
    exact .strings ..
  · cases h
    exact .booleans ..
  · cases h
    exact .moments ..
  · cases h
    exact .lengths ..
  · split at h
    · rename_i hm hn
      cases h
      exact .numbers hm hn
    · cases h

theorem order_of_counted {a b : Value} (hrank : a.rank = b.rank) (ha : a.wording = "") (hb : b.wording = "") :
    a.order b = Ord.compare a.amount b.amount := by
  rw [order_of_rank_eq hrank, ha, hb, show Ord.compare "" "" = .eq by decide, Ordering.then_eq]

/-- Where values can be compared, their order is the total one. -/
theorem compare_eq_order {a b : Value} (ha : a.isFraction = false) (hb : b.isFraction = false) {o : Ordering}
    (h : a.compare b = .ok o) : o = a.order b := by
  cases Compares.of_compare h with
  | absent => rfl
  | below hnull =>
      have hlt : rank .null < b.rank := rank_pos hnull
      exact (order_of_rank_lt hlt).symm
  | above hnull =>
      have hlt : rank .null < a.rank := rank_pos hnull
      rw [order_swap, order_of_rank_lt hlt]
      rfl
  | strings s t => exact (order_of_rank_eq (a := .string s) (b := .string t) rfl).symm
  | booleans p q =>
      rw [order_of_counted (a := .boolean p) (b := .boolean q) rfl rfl rfl]
      cases p <;> cases q <;> rfl
  | moments t u => exact (order_of_counted (a := .dateTime t) (b := .dateTime u) rfl rfl rfl).symm
  | lengths t u => exact (order_of_counted (a := .timeSpan t) (b := .timeSpan u) rfl rfl rfl).symm
  | numbers hm hn =>
      obtain ⟨hrank, hamount, hwording⟩ := rank_of_ofValue? hm
      obtain ⟨hrank', hamount', hwording'⟩ := rank_of_ofValue? hn
      rw [order_of_counted (hrank.trans hrank'.symm) hwording hwording', hamount, hamount']
      exact Number.compare_eq_units (isExact_of_ofValue? ha hm) (isExact_of_ofValue? hb hn)

/-- Values can be compared if one of them is absent or if they have their places on one line. -/
theorem exists_compare_iff (a b : Value) :
    (∃ o, a.compare b = .ok o) ↔ a = .null ∨ b = .null ∨ a.rank = b.rank ∧ a.rank ≠ 6 := by
  cases a <;> cases b <;> simp [compare, rank, Number.ofValue?]

theorem exists_compare_comm {a b : Value} (h : ∃ o, a.compare b = .ok o) : ∃ o, b.compare a = .ok o := by
  rw [exists_compare_iff] at h ⊢
  rcases h with rfl | rfl | ⟨hrank, hsix⟩
  · exact Or.inr (Or.inl rfl)
  · exact Or.inl rfl
  · exact Or.inr (Or.inr ⟨hrank.symm, hrank ▸ hsix⟩)

/-! ### Equality -/

theorem decimal_same (d e : Decimal) :
    (d.compare e == .eq) = true ↔ Number.units (.decimal d) = Number.units (.decimal e) := by
  rw [beq_iff_eq, Number.compare_decimal, Int.compare_eq_eq]

mutual

theorem same_self : ∀ {v : Value}, v.floatFree → v.same v
  | .null, _ | .boolean _, _ | .char _, _ | .string _, _ | .int .., _ | .dateTime _, _ | .timeSpan _, _
  | .enum .., _ => by simp [same]
  | .decimal d, _ => (decimal_same d d).mpr rfl
  | .object c fields items, h => by
      obtain ⟨hfields, hitems⟩ := Bool.and_eq_true_iff.mp h
      simp [same, sameAll_self hfields, sameAll_self hitems]
  | .list items, h => sameAll_self h
  | .group key items, h => by
      obtain ⟨hkey, hitems⟩ := Bool.and_eq_true_iff.mp h
      simp [same, same_self hkey, sameAll_self hitems]

theorem sameAll_self : ∀ {vs : List Value}, floatFreeAll vs → sameAll vs vs
  | [], _ => rfl
  | v :: vs, h => by
      obtain ⟨hv, hvs⟩ := Bool.and_eq_true_iff.mp h
      simp [sameAll, same_self hv, sameAll_self hvs]

end

theorem same_symm_all :
    (∀ a b : Value, a.floatFree → a.same b → b.same a) ∧
      ∀ as bs : List Value, floatFreeAll as → sameAll as bs → sameAll bs as := by
  apply same.mutual_induct
  case case6 | case7 => exact fun _ _ h => absurd h (by simp [floatFree])
  case case8 =>
    intro d e _ h
    exact (decimal_same e d).mpr ((decimal_same d e).mp h).symm
  case case12 =>
    intro c xs is d ys js hfields hitems hfree h
    obtain ⟨hxs, his⟩ := Bool.and_eq_true_iff.mp hfree
    simp only [same, Bool.and_eq_true, beq_iff_eq] at h ⊢
    exact ⟨⟨h.1.1.symm, hfields hxs h.1.2⟩, hitems his h.2⟩
  case case13 => exact fun xs ys ih => ih
  case case14 =>
    intro k xs l ys hkey hitems hfree h
    obtain ⟨hk, hxs⟩ := Bool.and_eq_true_iff.mp hfree
    simp only [same, Bool.and_eq_true] at h ⊢
    exact ⟨hkey hk h.1, hitems hxs h.2⟩
  case case17 =>
    intro x xs y ys hhead htail hfree h
    obtain ⟨hx, hxs⟩ := Bool.and_eq_true_iff.mp hfree
    simp only [sameAll, Bool.and_eq_true] at h ⊢
    exact ⟨hhead hx h.1, htail hxs h.2⟩
  all_goals
    intros
    simp_all [same, sameAll]

theorem same_trans_all :
    (∀ a b : Value, ∀ c, a.floatFree → a.same b → b.same c → a.same c) ∧
      ∀ as bs : List Value, ∀ cs, floatFreeAll as → sameAll as bs → sameAll bs cs → sameAll as cs := by
  apply same.mutual_induct
  case case6 | case7 => exact fun _ _ _ h => absurd h (by simp [floatFree])
  case case8 =>
    intro d e c _ h h'
    cases c with
    | decimal f => exact (decimal_same d f).mpr (((decimal_same d e).mp h).trans ((decimal_same e f).mp h'))
    | _ => simp [same] at h'
  case case12 =>
    intro c xs is d ys js hfields hitems v hfree h h'
    obtain ⟨hxs, his⟩ := Bool.and_eq_true_iff.mp hfree
    cases v with
    | object e zs ks =>
        simp only [same, Bool.and_eq_true, beq_iff_eq] at h h' ⊢
        exact ⟨⟨h.1.1.trans h'.1.1, hfields zs hxs h.1.2 h'.1.2⟩, hitems ks his h.2 h'.2⟩
    | _ => simp [same] at h'
  case case13 =>
    intro xs ys ih v hfree h h'
    cases v with
    | list zs => exact ih zs hfree h h'
    | _ => simp [same] at h'
  case case14 =>
    intro k xs l ys hkey hitems v hfree h h'
    obtain ⟨hk, hxs⟩ := Bool.and_eq_true_iff.mp hfree
    cases v with
    | group m zs =>
        simp only [same, Bool.and_eq_true] at h h' ⊢
        exact ⟨hkey m hk h.1 h'.1, hitems zs hxs h.2 h'.2⟩
    | _ => simp [same] at h'
  case case17 =>
    intro x xs y ys hhead htail vs hfree h h'
    obtain ⟨hx, hxs⟩ := Bool.and_eq_true_iff.mp hfree
    cases vs with
    | nil => simp [sameAll] at h'
    | cons z zs =>
        simp only [sameAll, Bool.and_eq_true] at h h' ⊢
        exact ⟨hhead z hx h.1 h'.1, htail zs hxs h.2 h'.2⟩
  case case5 | case9 | case10 =>
    intros
    rename_i v _ _ _
    cases v <;> simp_all [same]
  all_goals
    intros
    simp_all [same, sameAll]

/-- Exact numbers are equal if neither comes before the other. -/
theorem equal_eq_compare {a b : Value} {m n : Number} (hm : Number.ofValue? a = some m)
    (hn : Number.ofValue? b = some n) (hexact : m.isExact) : a.equal b = (m.compare n == .eq) := by
  rw [equal, hm, hn]
  cases m with
  | float x => cases hexact
  | int k => rfl
  | decimal d => rfl

/-- Numbers are equal if they have one place on their line, and other values if they are the same. -/
theorem equal_iff {a b : Value} (ha : a.floatFree) (hb : b.floatFree) :
    a.equal b ↔ (∃ m n, Number.ofValue? a = some m ∧ Number.ofValue? b = some n ∧ m.units = n.units) ∨
      Number.ofValue? a = none ∧ Number.ofValue? b = none ∧ a.same b := by
  cases hm : Number.ofValue? a with
  | none =>
      cases hn : Number.ofValue? b with
      | none => simp [equal, hm, hn]
      | some n => cases a <;> cases b <;> simp_all [equal, Number.ofValue?, same]
  | some m =>
      cases hn : Number.ofValue? b with
      | none => cases a <;> cases b <;> simp_all [equal, Number.ofValue?, same]
      | some n =>
          have hm' := isExact_of_ofValue? (isFraction_of_floatFree ha) hm
          have hn' := isExact_of_ofValue? (isFraction_of_floatFree hb) hn
          rw [equal_eq_compare hm hn hm', beq_iff_eq, Number.compare_eq_units hm' hn', Int.compare_eq_eq]
          simp

theorem equal_self {a : Value} (ha : a.floatFree) : a.equal a := by
  refine (equal_iff ha ha).mpr ?_
  cases hm : Number.ofValue? a with
  | none => exact Or.inr ⟨rfl, rfl, same_self ha⟩
  | some m => exact Or.inl ⟨m, m, rfl, rfl, rfl⟩

theorem equal_symm {a b : Value} (ha : a.floatFree) (hb : b.floatFree) (h : a.equal b) : b.equal a := by
  refine (equal_iff hb ha).mpr ?_
  rcases (equal_iff ha hb).mp h with ⟨m, n, hm, hn, hunits⟩ | ⟨hm, hn, hsame⟩
  · exact Or.inl ⟨n, m, hn, hm, hunits.symm⟩
  · exact Or.inr ⟨hn, hm, same_symm_all.1 a b ha hsame⟩

theorem equal_trans {a b c : Value} (ha : a.floatFree) (hb : b.floatFree) (hc : c.floatFree) (h : a.equal b)
    (h' : b.equal c) : a.equal c := by
  refine (equal_iff ha hc).mpr ?_
  rcases (equal_iff ha hb).mp h with ⟨m, n, hm, hn, hunits⟩ | ⟨hm, hn, hsame⟩
  · rcases (equal_iff hb hc).mp h' with ⟨n', k, hn', hk, hunits'⟩ | ⟨hn', -, -⟩
    · obtain rfl : n = n' := Option.some.inj (hn.symm.trans hn')
      exact Or.inl ⟨m, k, hm, hk, hunits.trans hunits'⟩
    · exact absurd (hn.symm.trans hn') (by simp)
  · rcases (equal_iff hb hc).mp h' with ⟨n', k, hn', -, -⟩ | ⟨-, hk, hsame'⟩
    · exact absurd (hn'.symm.trans hn) (by simp)
    · exact Or.inr ⟨hm, hk, same_trans_all.1 a b c ha hsame hsame'⟩

end Value

end RowQuery
