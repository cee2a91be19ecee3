import RowQuery.Proofs.ComparisonLaws
import RowQuery.Proofs.Dominance
import RowQuery.Proofs.IntegerComparison
import RowQuery.Proofs.Parentheses

/-!
The signs of comparison agree with each other. Operands of one type whose values are in order can be compared by
every sign, and all signs go by the same order of the two values, although they get there in different ways:
members of an enumeration stay what they are, short integers are widened, strings are put in order by a method
and are equal by their content.
-/

namespace RowQuery

/-! ### Types with an order -/

/-- Whether the values of a type are in order: strings, and integers, characters, decimals, moments, spans and
members of an enumeration, which may be absent. -/
def Ty.isOrdered (t : Ty) : Bool :=
  t = .string || t.isIntegral || t.isEnum || t.underlying ∈ [.char, .decimal, .dateTime, .timeSpan]

/-- The line on which the values of an ordered type stand. -/
def Ty.line (t : Ty) : Nat :=
  match t.underlying with
  | .string => 2
  | .dateTime => 4
  | .timeSpan => 5
  | _ => 1

theorem Ty.isEnum_iff {t : Ty} : t.isEnum ↔ ∃ e, t.underlying = .enum e := by
  unfold isEnum
  cases t.underlying <;> simp

/-- Values of an ordered type are no binary fractions and stand on one line. -/
theorem Catalog.rank_of_isOrdered {cat : Catalog} {t : Ty} (ht : t.isOrdered) {v : Value} (hv : cat.conforms v t) :
    v.isFraction = false ∧ (v = .null ∨ v.rank = t.line) := by
  simp only [Ty.isOrdered, Bool.or_eq_true, decide_eq_true_eq, Ty.isIntegral_iff, Ty.isEnum_iff, List.mem_cons,
    List.not_mem_nil, or_false] at ht
  rcases ht with ((rfl | ⟨k, h⟩) | ⟨e, h⟩) | h | h | h | h
  · rcases conforms_string.mp hv with rfl | ⟨s, rfl⟩
    · exact ⟨rfl, Or.inl rfl⟩
    · exact ⟨rfl, Or.inr rfl⟩
  all_goals cases v <;> simp_all [conforms, Value.isFraction, Value.rank, Ty.line]

/-- Values of an ordered type can be compared, absent ones too. -/
theorem Catalog.exists_compare {cat : Catalog} {t : Ty} (ht : t.isOrdered) {v w : Value} (hv : cat.conforms v t)
    (hw : cat.conforms w t) : v.isFraction = false ∧ w.isFraction = false ∧ ∃ o, v.compare w = .ok o := by
  obtain ⟨hfraction, hrank⟩ := rank_of_isOrdered ht hv
  obtain ⟨hfraction', hrank'⟩ := rank_of_isOrdered ht hw
  refine ⟨hfraction, hfraction', (Value.exists_compare_iff v w).mpr ?_⟩
  rcases hrank with hnull | hrank
  · exact Or.inl hnull
  · rcases hrank' with hnull | hrank'
    · exact Or.inr (Or.inl hnull)
    · have hline : t.line ≠ 6 := by
        unfold Ty.line
        split <;> decide
      exact Or.inr (Or.inr ⟨hrank.trans hrank'.symm, hrank ▸ hline⟩)

/-! ### Signs and orders -/

/-- What an order says of a comparison. -/
def BinaryOp.holds (op : BinaryOp) (o : Ordering) : Bool :=
  match op with
  | .equal => o == .eq
  | .notEqual => o != .eq
  | .lessThan => o == .lt
  | .lessThanOrEqual => o != .gt
  | .greaterThan => o == .gt
  | .greaterThanOrEqual => o != .lt
  | _ => false

/-- All signs go by the order of the values; absent values are compared only as to whether they are equal. -/
theorem Eval.strict_of_compare {op : BinaryOp} (hop : op.precedence = 3) {v w : Value} {o : Ordering}
    (hv : v.isFraction = false) (hw : w.isFraction = false) (hknown : op.isEquality ∨ v ≠ .null ∧ w ≠ .null)
    (h : v.compare w = .ok o) : strict op v w = .ok (.boolean (op.holds o)) := by
  have hequal : v.equal w = (o == .eq) := by
    rw [Bool.eq_iff_iff, ← Value.compare_eq_iff_equal hv hw h, beq_iff_eq]
  have hnan : ∀ {v : Value}, v.isFraction = false → isNan v = false := by
    intro v hv
    cases v <;> first | rfl | cases hv
  have hnull : ∀ {v : Value}, v ≠ .null → v.isNull = false := by
    intro v hv
    cases v <;> first | rfl | exact absurd rfl hv
  have horder : v ≠ .null ∧ w ≠ .null → ∀ test, inOrder test v w = .ok (.boolean (test o)) := by
    intro hknown test
    simp [inOrder, hnull hknown.1, hnull hknown.2, hnan hv, hnan hw, h, Except.map]
  cases op with
  | equal => simp only [strict, hequal, BinaryOp.holds]
  | notEqual => simp only [strict, hequal, BinaryOp.holds, bne]
  | lessThan => exact horder (hknown.resolve_left Bool.false_ne_true) _
  | lessThanOrEqual => exact horder (hknown.resolve_left Bool.false_ne_true) _
  | greaterThan => exact horder (hknown.resolve_left Bool.false_ne_true) _
  | greaterThanOrEqual => exact horder (hknown.resolve_left Bool.false_ne_true) _
  | _ => simp [BinaryOp.precedence] at hop

namespace Catalog

variable {cat : Catalog} {op : BinaryOp} {left right : Expr}

/-- An expression goes by the order of two others: wherever those have one value after the other, not absent unless
they are strings, it has the truth value that the order of the two values gives to the sign. -/
def Orders (cat : Catalog) (op : BinaryOp) (left right e : Expr) : Prop :=
  ∀ (s between after : Slots) (v w : Value) (o : Ordering), Eval.exec (cat.eval left) s = (.ok v, between) →
    Eval.exec (cat.eval right) between = (.ok w, after) → cat.conforms v left.ty → cat.conforms w right.ty →
    left.ty = .string ∨ v ≠ .null ∧ w ≠ .null → v.compare w = .ok o →
    Eval.exec (cat.eval e) s = (.ok (.boolean (op.holds o)), after)

/-- Operands that are left as they are. -/
theorem orders_operands (hop : op.precedence = 3) (hty : right.ty = left.ty) (ht : left.ty.isOrdered)
    (hstring : op.isEquality ∨ left.ty ≠ .string) : cat.Orders op left right (.binary .boolean op left right) := by
  intro s between after v w o hv hw hleft hright hknown hcompare
  obtain ⟨hfraction, hfraction', -⟩ := exists_compare ht hleft (hty ▸ hright)
  refine exec_strict hop hv hw (Eval.strict_of_compare hop hfraction hfraction' ?_ hcompare)
  rcases hstring with hequality | hstring
  · exact Or.inl hequality
  · exact Or.inr (hknown.resolve_left hstring)

/-- The number by which a method says in what order two strings are. -/
def signum : Ordering → Int
  | .lt => -1
  | .eq => 0
  | .gt => 1

theorem call_compareStrings {v w : Value} {o : Ordering} (h : v.compare w = .ok o) :
    Eval.call cat Predefined.compareStrings none [v, w] = .ok (.int32 (signum o)) := by
  refine Typing.bind_eq_ok.mpr ⟨v, rfl, Typing.bind_eq_ok.mpr ⟨w, rfl, Typing.bind_eq_ok.mpr ⟨o, h, ?_⟩⟩⟩
  cases o <;> rfl

theorem exec_compareStrings {s between after : Slots} {v w : Value} {o : Ordering}
    (hv : Eval.exec (cat.eval left) s = (.ok v, between)) (hw : Eval.exec (cat.eval right) between = (.ok w, after))
    (h : v.compare w = .ok o) :
    Eval.exec (cat.eval (.call .int32 Predefined.compareStrings none [left, right])) s =
      (.ok (.int32 (signum o)), after) := by
  have hargs : Eval.exec (cat.evalAll [left, right]) s = (.ok [v, w], after) := by
    rw [evalAll, Eval.exec_bind, hv]
    simp only
    rw [evalAll, Eval.exec_bind, Eval.exec_bind, hw]
    rfl
  rw [eval, Eval.exec_bind]
  show Eval.exec (cat.evalAll [left, right] >>= fun args =>
    Eval.rule (Eval.call cat Predefined.compareStrings none args)) s = _
  rw [Eval.exec_bind, hargs]
  show Eval.exec (Eval.rule (Eval.call cat Predefined.compareStrings none [v, w])) after = _
  rw [call_compareStrings h]
  rfl

/-- Strings that are put in order by a method. -/
theorem orders_strings (hop : op.precedence = 3) :
    cat.Orders op left right
      (.binary .boolean op (.call .int32 Predefined.compareStrings none [left, right])
        (.constant .int32 (.int32 0))) := by
  intro s between after v w o hv hw _ _ _ hcompare
  have hcall := exec_compareStrings hv hw hcompare
  have hzero : Eval.exec (cat.eval (.constant .int32 (.int32 0))) after = (.ok (.int32 0), after) := rfl
  -- the number stands in the same order to zero as the strings to each other, and is never absent
  have hsignum : (Value.int32 (signum o)).compare (.int32 0) = .ok o := by cases o <;> rfl
  have hknown : ∀ n, Value.int32 n ≠ .null := by simp [Value.int32]
  exact exec_strict hop hcall hzero (Eval.strict_of_compare hop rfl rfl (Or.inr ⟨hknown _, hknown _⟩) hsignum)

/-- Integers that others stand for. -/
theorem orders_integers (hop : op.precedence = 3) (hty : right.ty = left.ty) (ht : left.ty.isIntegral) {l r : Expr}
    (hl : cat.Keeps left l ∧ l.ty.isIntegral) (hr : cat.Keeps right r ∧ r.ty.isIntegral) :
    cat.Orders op left right (.binary .boolean op l r) := by
  intro s between after v w o hv hw hleft hright hknown hcompare
  have hordered : left.ty.isOrdered := by simp [Ty.isOrdered, ht]
  obtain ⟨k, hk⟩ := Ty.isIntegral_iff.mp ht
  have hstring : left.ty ≠ .string := by
    intro heq
    rw [heq] at hk
    cases hk
  have hknown := hknown.resolve_left hstring
  obtain ⟨hfraction, hfraction', -⟩ := exists_compare hordered hleft (hty ▸ hright)
  have hstrict := Eval.strict_of_compare hop hfraction hfraction' (Or.inr hknown) hcompare
  obtain ⟨m, rfl⟩ := ((conforms_integral hk).mp hleft).resolve_left fun h => hknown.1 h.1
  obtain ⟨n, rfl⟩ := ((conforms_integral (hty ▸ hk)).mp hright).resolve_left fun h => hknown.2 h.1
  -- what the integers decide is what their order as values decides
  rw [Eval.strict_integers hop (Or.inr ⟨k, m, rfl⟩) (Or.inr ⟨k, n, rfl⟩)] at hstrict
  rw [exec_comparison hop hl hr hv hw hleft hright, hstrict]

end Catalog

/-! ### The rule for comparisons -/

namespace Typing

variable {cat : Catalog} {left right : Expr} {op : BinaryOp} {t : Ty}

/-- The integral types that no operator takes as they are. -/
def shortTypes : List Ty := Signatures.withNullable [.int .sbyte, .int .byte, .int .int16, .int .uint16]

/-- The ordered types that comparisons take as they are, other than strings. -/
def exactTypes : List Ty :=
  Signatures.withNullable [.int32, .uint32, .int64, .uint64, .decimal, .char, .dateTime, .timeSpan]

theorem isOrdered_cases (ht : t.isOrdered) : t = .string ∨ t.isEnum ∨ t ∈ shortTypes ∨ t ∈ exactTypes := by
  have hform : t = t.underlying ∨ t = .nullable t.underlying := by cases t <;> simp [Ty.underlying]
  simp only [Ty.isOrdered, Bool.or_eq_true, decide_eq_true_eq, Ty.isIntegral_iff] at ht
  rcases ht with ((ht | ⟨k, hk⟩) | ht) | ht
  · exact Or.inl ht
  · rw [hk] at hform
    rcases hform with rfl | rfl <;> cases k <;> decide
  · exact Or.inr (Or.inl ht)
  · refine Or.inr (Or.inr (Or.inr (Signatures.mem_withNullable.mpr ⟨t.underlying, ?_, hform⟩)))
    revert ht
    generalize t.underlying = u
    revert u
    decide

/-- The type of 32 bits in place of a shorter one. -/
def widened : Ty → Ty
  | .nullable _ => .nullable .int32
  | _ => .int32

/-- How conversions to types of values compare does not depend on the declared classes. -/
theorem compareConversions_congr (cat cat' : Catalog) (s : Ty) {a b : Ty} (ha : a.isValueType)
    (hb : b.isValueType) : cat.compareConversions s a b = cat'.compareConversions s a b := by
  have hcompatible : ∀ {s t : Ty}, t.isValueType → cat.isCompatible s t = cat'.isCompatible s t := by
    intro s t ht
    simp only [Catalog.isCompatible, ht, Bool.not_true, Bool.false_eq_true, if_false]
  rw [Catalog.compareConversions, Catalog.compareConversions, hcompatible ha, hcompatible hb]

/-- For short integers, whether they may be absent or not, 32 bits are the best of all types of numbers. -/
theorem compareConversions_widened (cat : Catalog) {s u : Ty} (hs : s ∈ shortTypes) (hu : u ∈ [s, s.underlying])
    (ht : t ∈ Signatures.arithmeticTypes) (hnull : s.isNullable → t.isNullable) (hne : t ≠ widened s) :
    cat.compareConversions u (widened s) t = .gt := by
  have hvalue : ∀ s ∈ shortTypes, (widened s).isValueType := by decide
  have hvalue' : ∀ t ∈ Signatures.arithmeticTypes, t.isValueType := by decide
  rw [compareConversions_congr cat .empty u (hvalue s hs) (hvalue' t ht)]
  revert t
  revert u
  revert s
  decide +kernel

theorem isCompatible_widened (cat : Catalog) {s u : Ty} (hs : s ∈ shortTypes) (hu : u ∈ [s, s.underlying]) :
    cat.isCompatible u (widened s) := by
  have hvalue : ∀ s ∈ shortTypes, ∀ u ∈ [s, s.underlying], (widened s).isValueType ∧
      Catalog.empty.isCompatible u (widened s) := by decide
  obtain ⟨hform, hcompatible⟩ := hvalue s hs u hu
  simpa only [Catalog.isCompatible, hform, Bool.not_true, Bool.false_eq_true, if_false] using hcompatible

theorem isIntegral_of_short {s : Ty} (hs : s ∈ shortTypes) :
    s.isIntegral ∧ widened s ∈ Signatures.arithmeticTypes := by
  revert s
  decide

/-- Whatever takes a short integer is a type of numbers, and may be absent if the integer may. -/
theorem numeric_of_short {e : Expr} (he : e.Faithful) (hshort : e.ty ∈ shortTypes)
    (hintegral : t.isIntegral → t ∈ Signatures.arithmeticTypes) (hobject : t ≠ .object)
    (happlies : (cat.promote? e t false).isSome) :
    t ∈ Signatures.arithmeticTypes ∧ (e.ty.isNullable → t.isNullable) := by
  obtain ⟨e', he'⟩ := Option.isSome_iff_exists.mp happlies
  obtain ⟨hnumeric, hnull⟩ := numeric_of_promotes (Promotes.of_promote? he') he (isIntegral_of_short hshort).1 hobject
  have hsub : fractionalTypes ⊆ Signatures.arithmeticTypes := by decide
  exact ⟨hnumeric.elim hintegral fun h => hsub h, hnull⟩

/-- Short integers are widened to 32 bits. If only one of them may be absent, the other one may be so after that. -/
theorem operands_widened (types : List Ty) {s : Ty} (symbol : String) (hleft : left.Faithful) (hright : right.Faithful)
    (hs : s ∈ shortTypes) (htyleft : left.ty ∈ [s, s.underlying]) (htyright : right.ty ∈ [s, s.underlying])
    (hform : left.ty = s ∨ right.ty = s) (harithmetic : Signatures.arithmeticTypes ⊆ types) (hobject : .object ∉ types)
    (hintegral : ∀ t ∈ types, t.isIntegral → t ∈ Signatures.arithmeticTypes)
    (hdistinct : (Signatures.binary types).Nodup) :
    ∃ l r, operands cat (Signatures.binary types) symbol left right = .ok (l, r) := by
  obtain ⟨l, hl⟩ :=
    Option.isSome_iff_exists.mp (cat.promote?_isSome (isCompatible_widened cat hs htyleft) false)
  obtain ⟨r, hr⟩ :=
    Option.isSome_iff_exists.mp (cat.promote?_isSome (isCompatible_widened cat hs htyright) false)
  have hmem := harithmetic (isIntegral_of_short hs).2
  obtain ⟨i, hi⟩ := List.mem_iff_getElem?.mp (Signatures.mem_binary.mpr ⟨rfl, hmem⟩)
  have hdominant : Overload.Dominant cat (Signatures.binary types) [left, right]
      ⟨i, [widened s, widened s], [l, r]⟩ := by
    refine ⟨hi, by simp [Overload.applies, hl, hr], by simp [hl, hr], fun j params hj hne happlies => ?_⟩
    obtain ⟨t, ht, rfl⟩ := List.mem_map.mp (List.mem_of_getElem? hj)
    simp only [Overload.applies, List.zip_cons_cons, List.all_cons, Bool.and_eq_true] at happlies
    have hobject : t ≠ .object := fun heq => hobject (heq ▸ ht)
    obtain ⟨hnumeric, hnull⟩ : t ∈ Signatures.arithmeticTypes ∧ (s.isNullable → t.isNullable) := by
      rcases hform with rfl | rfl
      · exact numeric_of_short hleft hs (hintegral t ht) hobject happlies.2.1
      · exact numeric_of_short hright hs (hintegral t ht) hobject happlies.2.2.1
    -- no type stands at two places
    have hother : t ≠ widened s := by
      rintro rfl
      exact hne ((List.getElem?_inj (List.getElem?_eq_some_iff.mp hj).1 hdistinct).mp (hj.trans hi.symm))
    simp [Overload.isBetter, Overload.comparisons, compareConversions_widened cat hs htyleft hnumeric hnull hother,
      compareConversions_widened cat hs htyright hnumeric hnull hother]
  exact ⟨l, r, by rw [operands, Overload.resolve_eq_found_iff.mpr hdominant]⟩

/-- Short integers can be compared. -/
theorem exists_operands_of_short (cat : Catalog) {s : Ty} (op : BinaryOp) (symbol : String) (hleft : left.Faithful)
    (hright : right.Faithful) (hs : s ∈ shortTypes) (htyleft : left.ty ∈ [s, s.underlying])
    (htyright : right.ty ∈ [s, s.underlying]) (hform : left.ty = s ∨ right.ty = s) :
    ∃ l r, operands cat (if op.isEquality then Signatures.equality else Signatures.relational) symbol left right =
      .ok (l, r) := by
  cases op.isEquality with
  | true =>
      exact operands_widened (Signatures.relationalTypes ++ Signatures.withNullable [.boolean]) symbol hleft hright hs
        htyleft htyright hform (by decide) (by decide) (by decide) (by decide)
  | false =>
      exact operands_widened Signatures.relationalTypes symbol hleft hright hs htyleft htyright hform (by decide)
        (by decide) (by decide) (by decide)

/-- A literal that is compared with an operand of its own type is left as it is. -/
theorem narrowLiteral_self (equality : Bool) (hleft : left.Faithful) (hright : right.Faithful)
    (hty : right.ty = left.ty) : narrowLiteral equality left right = .ok (left, right) := by
  have hnarrowed : ∀ {e e' : Expr}, e.Faithful → isIntegerLiteral e → e'.ty = e.ty →
      narrowed equality e e' = .ok e := by
    intro e e' he hliteral hty
    simp only [isIntegerLiteral, Bool.and_eq_true] at hliteral
    cases e with
    | literal ty value text =>
        obtain ⟨k, w, heq, -⟩ := Grammar.integerLiteral?_eq_some (he _ _ _ rfl hliteral.2)
        cases heq
        have htarget : e'.ty.underlying = (Expr.literal (.int k) (.int k w) text).ty := congrArg Ty.underlying hty
        simp [narrowed, htarget]
    | _ => cases hliteral.1
  unfold narrowLiteral
  split
  · rename_i hliteral _
    rw [hnarrowed hleft hliteral hty]
    rfl
  · rename_i _ hliteral
    rw [hnarrowed hright hliteral hty.symm]
    rfl
  · rfl

/-- Operands of one type that is no enumeration are compared as the overloads say. -/
theorem comparable_eq_operands (symbol : String) (hleft : left.Faithful) (hright : right.Faithful)
    (hty : right.ty = left.ty) (hvalue : op.isEquality = false ∨ left.ty.isValueType)
    (hplain : left.ty.isEnum = false) :
    comparable cat op symbol left right =
      operands cat (if op.isEquality then Signatures.equality else Signatures.relational) symbol left right := by
  have hreference : (op.isEquality && !left.ty.isValueType && !left.ty.isValueType) = false := by
    rcases hvalue with h | h <;> simp [h]
  simp only [comparable, hreference, hty, hplain, Bool.or_self, Bool.false_eq_true, if_false]
  rw [narrowLiteral_self _ hleft hright hty]
  rfl

/-- Operands that are left as they are and are not put in order by a method. -/
theorem comparison_of_comparable {symbol : String} (h : comparable cat op symbol left right = .ok (left, right))
    (hstring : op.isEquality ∨ left.ty.underlying ≠ .string) :
    comparison cat op symbol left right = .ok (.binary .boolean op left right) := by
  have hmethod : (!op.isEquality && decide (left.ty.underlying = .string)) = false := by
    rcases hstring with h | h <;> simp [h]
  refine bind_eq_ok.mpr ⟨_, h, ?_⟩
  simp only [hmethod, Bool.false_eq_true, if_false]
  rfl

/-- Two operands can be compared, and are compared by the order of their values. -/
def Ordered (cat : Catalog) (op : BinaryOp) (symbol : String) (left right : Expr) : Prop :=
  ∃ e, comparison cat op symbol left right = .ok e ∧ e.ty = .boolean ∧ cat.Orders op left right e

section

variable (symbol : String) (hop : op.precedence = 3) (hleft : left.Faithful) (hright : right.Faithful)
  (hty : right.ty = left.ty) (ht : left.ty.isOrdered)

include hop hty ht

theorem Ordered.of_comparable (hcomparable : comparable cat op symbol left right = .ok (left, right))
    (hstring : op.isEquality ∨ left.ty.underlying ≠ .string) : Ordered cat op symbol left right := by
  have hne : op.isEquality ∨ left.ty ≠ .string := by
    refine hstring.imp_right fun hne heq => hne ?_
    rw [heq]
    rfl
  exact ⟨_, comparison_of_comparable hcomparable hstring, rfl, Catalog.orders_operands hop hty ht hne⟩

theorem ordered_enums (henum : left.ty.isEnum) : Ordered cat op symbol left right := by
  obtain ⟨e, he⟩ := Ty.isEnum_iff.mp henum
  have hvalue : left.ty.isValueType := by
    cases hform : left.ty <;> simp_all [Ty.isValueType, Ty.underlying]
  have hcomparable : comparable cat op symbol left right = .ok (left, right) := by
    simp [comparable, enumPair, henum, hty, hvalue]
  exact .of_comparable symbol hop hty ht hcomparable (Or.inr (by simp [he]))

include hleft hright

theorem ordered_strings (hstring : left.ty = .string) : Ordered cat op symbol left right := by
  cases hequality : op.isEquality with
  | true =>
      have hcomparable : comparable cat op symbol left right = .ok (left, right) := by
        simp [comparable, referencePair, hequality, hty, hstring, Ty.isValueType]
      exact .of_comparable symbol hop hty ht hcomparable (Or.inl hequality)
  | false =>
      have hcomparable : comparable cat op symbol left right = .ok (left, right) := by
        rw [comparable_eq_operands symbol hleft hright hty (Or.inl hequality) (by rw [hstring]; rfl), hequality]
        exact operands_exact symbol (by rw [hty, hstring]; decide) (by decide)
      refine ⟨_, bind_eq_ok.mpr ⟨_, hcomparable, ?_⟩, rfl, Catalog.orders_strings hop⟩
      simp [hequality, hstring, Ty.underlying, pure, Except.pure]

theorem ordered_exact (hexact : left.ty ∈ exactTypes) : Ordered cat op symbol left right := by
  obtain ⟨hvalue, hplain, hstring, hequality, hrelational⟩ : left.ty.isValueType ∧ left.ty.isEnum = false ∧
      left.ty.underlying ≠ .string ∧ [left.ty, left.ty] ∈ Signatures.equality ∧
      [left.ty, left.ty] ∈ Signatures.relational := by
    revert hexact
    generalize left.ty = t
    revert t
    decide
  have hcomparable : comparable cat op symbol left right = .ok (left, right) := by
    rw [comparable_eq_operands symbol hleft hright hty (Or.inr hvalue) hplain]
    cases op.isEquality with
    | true => exact operands_exact symbol (by rwa [hty]) (by decide)
    | false => exact operands_exact symbol (by rwa [hty]) (by decide)
  exact .of_comparable symbol hop hty ht hcomparable (Or.inr hstring)

omit ht in
theorem ordered_short (hshort : left.ty ∈ shortTypes) : Ordered cat op symbol left right := by
  have hintegral := (isIntegral_of_short hshort).1
  obtain ⟨hvalue, hplain⟩ := Ty.isValueType_of_isIntegral hintegral
  obtain ⟨l, r, hoperands⟩ := exists_operands_of_short cat op symbol hleft hright hshort
    List.mem_cons_self (hty ▸ List.mem_cons_self) (Or.inl rfl)
  rw [← comparable_eq_operands symbol hleft hright hty (Or.inr hvalue) hplain] at hoperands
  obtain ⟨e, he⟩ : ∃ e, comparison cat op symbol left right = .ok e := by
    simp only [comparison, hoperands, bind, Except.bind]
    split <;> exact ⟨_, rfl⟩
  obtain ⟨l, r, rfl, hl, hr⟩ := comparison_integral he hleft hright hintegral (by rwa [hty])
  exact ⟨_, he, rfl, Catalog.orders_integers hop hty hintegral hl hr⟩

/-- Operands of one ordered type can be compared, and are compared by the order of their values. -/
theorem ordered_operands : Ordered cat op symbol left right := by
  rcases isOrdered_cases ht with hstring | henum | hshort | hexact
  · exact ordered_strings symbol hop hleft hright hty ht hstring
  · exact ordered_enums symbol hop hty ht henum
  · exact ordered_short symbol hop hleft hright hty hshort
  · exact ordered_exact symbol hop hleft hright hty ht hexact

end

end Typing

/-! ### Texts -/

open Parse Grammar Lexeme

/-- Two operands in parentheses with a sign between them. -/
def Query.compared (a sign b : String) : String := parenthesized a ++ " " ++ sign ++ " " ++ parenthesized b

namespace Environment

variable {env : Environment} {decls : List ParamDecl} {result : Option Ty} {text a b : String}
  {args : List Argument} {l l₁ l₂ : Lambda} {op : BinaryOp} {row : List Value} {v w : Value}

/-- A text in parentheses is an operand of a comparison. -/
theorem CompilesWithin.operand (h : env.CompilesWithin (maxDepth - 1) decls none text args l) :
    env.CompilesOperand decls (Query.parenthesized text) args l := by
  have hcompiles : env.Compiles decls none text args l := h.mono (by decide)
  have hparams := hcompiles.derives.1
  obtain ⟨symbols, ls, grow, used, hsymbols, hscans, hused, htakes⟩ := h.takes_parenthesized (n := maxDepth - 2)
  have hunary := htakes 0 .empty [] (.nil 6)
  rw [raise_zero, Expr.mapSlots_id] at hunary
  have hadditive : Takes (reader (level (maxDepth - 1)) 4) _ _ _ _ _ [] :=
    takes_descend (level_derived _) (k := 6) hunary (by decide) (.nil 4)
  have hphrase : env.CompilesPhrase 4 decls (Query.parenthesized text) args _ := .of_takes hsymbols hscans hadditive
  rwa [Nat.add_zero, ← hused, ← hparams] at hphrase

/-- Two operands with a sign between them compile if the rule for comparisons makes a truth value of them. -/
theorem CompilesOperand.exists_comparison {sign : Lexeme} (hsign : comparisonOperator? sign.kind = some op)
    (hwhole : sign.Whole) (h₁ : env.CompilesOperand decls a args l₁) (h₂ : env.CompilesOperand decls b args l₂)
    (htyped : ∀ shift, ∃ e, Typing.comparison env.catalog op sign.text l₁.body
      (l₂.body.mapSlots (raise decls.length shift)) = .ok e ∧ e.ty = .boolean)
    (hresult : ∀ t ∈ result, t = .boolean) :
    ∃ l, env.Compiles decls result (a ++ " " ++ sign.text ++ " " ++ b) args l := by
  refine CompilesPhrase.exists_join (joins_comparison hsign hwhole) (h₁.phrase.descend (by decide)) h₂.phrase
    fun shift => ?_
  obtain ⟨e, hcomparison, hty⟩ := htyped shift
  exact ⟨e, hcomparison, fun t ht => hty.trans (hresult t ht).symm⟩

/-- A text compiles, and whatever it compiles to has a truth value in a row. -/
def Decides (env : Environment) (decls : List ParamDecl) (result : Option Ty) (text : String) (args : List Argument)
    (row : List Value) (truth : Bool) : Prop :=
  (∃ l, env.Compiles decls result text args l) ∧
    ∀ l, env.Compiles decls result text args l → env.catalog.evalLambda l row = .ok (.boolean truth)

section

variable (hresult : ∀ t ∈ result, t = .boolean)
  (h₁ : env.CompilesWithin (maxDepth - 1) decls none a args l₁)
  (h₂ : env.CompilesWithin (maxDepth - 1) decls none b args l₂) (hty : l₂.body.ty = l₁.body.ty)
  (hordered : l₁.body.ty.isOrdered) {sign : String} (hsign : (sign, op) ∈ BinaryOp.signs)

include hresult h₁ h₂ hty hordered hsign

theorem exists_compares : ∃ l, env.Compiles decls result (Query.compared a sign b) args l := by
  obtain ⟨hop, lexeme, rfl, hwhole, hlexeme⟩ := BinaryOp.exists_lexeme hsign
  refine h₁.operand.exists_comparison hlexeme hwhole h₂.operand (fun shift => ?_) hresult
  obtain ⟨e, he, hboolean, -⟩ := Typing.ordered_operands lexeme.text hop h₁.operand.compiles.faithful
    (h₂.operand.compiles.faithful.mapSlots (raise decls.length shift)) (by rw [Expr.ty_substitute, hty]) hordered
  exact ⟨e, he, hboolean⟩

/-- A sign between two operands of one ordered type goes by the order of their values. -/
theorem decides_compared {o : Ordering} (hv : env.catalog.evalLambda l₁ row = .ok v)
    (hw : env.catalog.evalLambda l₂ row = .ok w) (hconforms : env.catalog.conforms v l₁.body.ty)
    (hconforms' : env.catalog.conforms w l₁.body.ty) (hknown : l₁.body.ty = .string ∨ v ≠ .null ∧ w ≠ .null)
    (ho : v.compare w = .ok o) : env.Decides decls result (Query.compared a sign b) args row (op.holds o) := by
  refine ⟨exists_compares hresult h₁ h₂ hty hordered hsign, fun l h => ?_⟩
  obtain ⟨hop, lexeme, rfl, hwhole, hlexeme⟩ := BinaryOp.exists_lexeme hsign
  obtain ⟨shift, e, hcomparison, htyped⟩ := h.comparison_eq_ok hlexeme hwhole h₁.operand h₂.operand
  have hty' : (l₂.body.mapSlots (raise decls.length shift)).ty = l₁.body.ty := by rw [Expr.ty_substitute, hty]
  obtain ⟨e', he', hboolean, horders⟩ := Typing.ordered_operands lexeme.text hop h₁.operand.compiles.faithful
    (h₂.operand.compiles.faithful.mapSlots (raise decls.length shift)) hty' hordered
  obtain rfl : e = e' := Except.ok.inj (hcomparison.symm.trans he')
  -- a truth value is not converted, whether one is asked for or not
  have hbody : l.body = e := by
    cases result with
    | none => exact (Except.ok.inj htyped).symm
    | some t =>
        rw [hresult t rfl] at htyped
        exact (Typing.result_boolean htyped).1
  obtain ⟨hrow, between, after, hrun₁, hrun₂⟩ := h₁.operand.compiles.exec_both h₂.operand.compiles hv hw l.slots shift
  have hrun := horders _ _ _ _ _ _ hrun₁ hrun₂ hconforms (by rwa [hty']) hknown ho
  rw [← h.derives.1] at hrow hrun
  rw [Catalog.evalLambda, if_pos hrow, hbody]
  exact congrArg Prod.fst hrun

end

end Environment

/-- The signs of comparison between two operands of one ordered type, each in parentheses and with room for that,
compile as expressions and as conditions. Of the values of such operands, where strings may be absent and others
not, exactly one of "less", "equal" and "greater" holds, the other signs say what they say in those terms, and
"less" is "greater" the other way round. -/
theorem comparisons_coherent {env : Environment} {decls : List ParamDecl} {result : Option Ty} {a b : String}
    {args : List Argument} {l₁ l₂ : Lambda} (hresult : ∀ t ∈ result, t = .boolean)
    (h₁ : env.CompilesWithin (maxDepth - 1) decls none a args l₁)
    (h₂ : env.CompilesWithin (maxDepth - 1) decls none b args l₂) (hty : l₂.body.ty = l₁.body.ty)
    (hordered : l₁.body.ty.isOrdered) :
    (∀ sign ∈ ["<", "<=", "==", "!=", ">=", ">"],
      ∃ l, env.Compiles decls result (Query.compared a sign b) args l) ∧
    ∀ (row : List Value) (v w : Value), env.catalog.evalLambda l₁ row = .ok v →
      env.catalog.evalLambda l₂ row = .ok w → env.catalog.conforms v l₁.body.ty →
      env.catalog.conforms w l₁.body.ty → l₁.body.ty = .string ∨ v ≠ .null ∧ w ≠ .null →
      ∃ less equal greater : Bool, [less, equal, greater].count true = 1 ∧
        env.Decides decls result (Query.compared a "<" b) args row less ∧
        env.Decides decls result (Query.compared a "==" b) args row equal ∧
        env.Decides decls result (Query.compared a ">" b) args row greater ∧
        env.Decides decls result (Query.compared a "<=" b) args row (less || equal) ∧
        env.Decides decls result (Query.compared a ">=" b) args row (greater || equal) ∧
        env.Decides decls result (Query.compared a "!=" b) args row (!equal) ∧
        env.Decides decls result (Query.compared b ">" a) args row less := by
  constructor
  · intro sign hsign
    obtain ⟨op, hop⟩ : ∃ op, (sign, op) ∈ BinaryOp.signs := by
      revert sign
      simp [BinaryOp.signs]
    exact Environment.exists_compares hresult h₁ h₂ hty hordered hop
  · intro row v w hv hw hconforms hconforms' hknown
    obtain ⟨hfraction, hfraction', o, ho⟩ := Catalog.exists_compare hordered hconforms hconforms'
    have hdecides : ∀ {sign : String} {op : BinaryOp}, (sign, op) ∈ BinaryOp.signs →
        env.Decides decls result (Query.compared a sign b) args row (op.holds o) :=
      fun hsign => Environment.decides_compared hresult h₁ h₂ hty hordered hsign hv hw hconforms hconforms' hknown ho
    have hswapped : env.Decides decls result (Query.compared b ">" a) args row (BinaryOp.greaterThan.holds o.swap) :=
      Environment.decides_compared hresult h₂ h₁ hty.symm (by rwa [hty]) (by decide) hw hv (by rwa [hty])
        (by rwa [hty]) (hknown.imp (hty.trans ·) And.symm) (Value.compare_swap hfraction hfraction' ho)
    refine ⟨BinaryOp.lessThan.holds o, BinaryOp.equal.holds o, BinaryOp.greaterThan.holds o, ?_, hdecides (by decide),
      hdecides (by decide), hdecides (by decide), ?_, ?_,
      hdecides (show ("!=", BinaryOp.notEqual) ∈ BinaryOp.signs by decide), ?_⟩
    · cases o <;> rfl
    · have hatMost : BinaryOp.lessThanOrEqual.holds o = (BinaryOp.lessThan.holds o || BinaryOp.equal.holds o) := by
        cases o <;> rfl
      rw [← hatMost]
      exact hdecides (by decide)
    · have hatLeast : BinaryOp.greaterThanOrEqual.holds o =
          (BinaryOp.greaterThan.holds o || BinaryOp.equal.holds o) := by cases o <;> rfl
      rw [← hatLeast]
      exact hdecides (by decide)
    · have hless : BinaryOp.greaterThan.holds o.swap = BinaryOp.lessThan.holds o := by cases o <;> rfl
      rwa [hless] at hswapped

/-- An operand whose type and value in a row pass a check. -/
theorem Environment.exists_typedOperand {env : Environment} {decls : List ParamDecl} {text : String}
    {args : List Argument} {row : List Value} {t : Ty}
    (h : ((env.compileWithin (maxDepth - 1) decls none text args).exec .empty).1.toOption.any fun l =>
      l.body.ty = t && (env.catalog.evalLambda l row).toOption.any fun v => env.catalog.conforms v t) :
    ∃ l v, env.CompilesWithin (maxDepth - 1) decls none text args l ∧ l.body.ty = t ∧
      env.catalog.evalLambda l row = .ok v ∧ env.catalog.conforms v t := by
  obtain ⟨l, hrun, hcheck⟩ := toOption_any.mp h
  obtain ⟨hty, hcheck⟩ := (Bool.and_eq_true _ _).mp hcheck
  obtain ⟨v, hv, hconforms⟩ := toOption_any.mp hcheck
  exact ⟨l, v, ⟨.empty, hrun⟩, of_decide_eq_true hty, hv, hconforms⟩

/-- An absent string comes before the empty one, whichever sign says so. -/
theorem comparisons_coherent_absent :
    let env : Environment := ⟨.empty, .empty⟩
    let decls : List ParamDecl := [⟨some "s", .string⟩, ⟨some "t", .string⟩]
    let row : List Value := [.null, .string ""]
    let decides (a sign b : String) := env.Decides decls (some .boolean) (Query.compared a sign b) [] row
    decides "s" "<" "t" true ∧ decides "s" "==" "t" false ∧ decides "s" ">=" "t" false ∧ decides "t" ">" "s" true := by
  intro env decls row decides
  obtain ⟨l₁, v, h₁, hty₁, hv, hconforms⟩ : ∃ l v, env.CompilesWithin (maxDepth - 1) decls none "s" [] l ∧
      l.body.ty = .string ∧ env.catalog.evalLambda l row = .ok v ∧ env.catalog.conforms v .string :=
    Environment.exists_typedOperand (by decide +kernel)
  obtain ⟨l₂, w, h₂, hty₂, hw, hconforms'⟩ : ∃ l v, env.CompilesWithin (maxDepth - 1) decls none "t" [] l ∧
      l.body.ty = .string ∧ env.catalog.evalLambda l row = .ok v ∧ env.catalog.conforms v .string :=
    Environment.exists_typedOperand (by decide +kernel)
  have hboolean : ∀ t ∈ some Ty.boolean, t = .boolean := by simp
  obtain ⟨-, hruns⟩ := comparisons_coherent hboolean h₁ h₂ (hty₂.trans hty₁.symm) (by rw [hty₁]; rfl)
  obtain ⟨less, equal, greater, hone, hless, hequal, hgreater, -, hatLeast, -, hswapped⟩ :=
    hruns row v w hv hw (by rwa [hty₁]) (by rwa [hty₁]) (Or.inl hty₁)
  have hrun : ((env.compile decls (some .boolean) (Query.compared "s" "<" "t") []).exec .empty).1.toOption.any
      fun l => (env.catalog.evalPredicate l row).toOption == some true := by decide +kernel
  obtain ⟨l, hl, htrue⟩ := toOption_any.mp hrun
  rw [Catalog.evalPredicate, hless.2 l ⟨.empty, hl⟩] at htrue
  obtain rfl : less = true := by simpa [bind, Except.bind, pure, Except.pure, Except.toOption] using htrue
  obtain ⟨rfl, rfl⟩ : equal = false ∧ greater = false := by
    revert hone
    cases equal <;> cases greater <;> decide
  exact ⟨hless, hequal, hatLeast, hswapped⟩

end RowQuery
