import RowQuery.Proofs.Conformance

/-!
The operations on values respect types: applied to values that conform to the types an operation is
declared for, it gives a value of the type it is declared to give, or fails for a reason that lies in the
values and not in their kinds. Each family of operations has one such lemma.
-/

namespace RowQuery

/-- The failures that well-typed operations may have. Of those that blame the kind of a value only two
remain: a search for an absent text and the replacement of one. -/
def EvalError.isExpected : EvalError → Bool
  | .arity _ _ => false
  | .typeError (.expectsString what) => what == "IndexOf" || what == "Replace"
  | .typeError _ => false
  | _ => true

/-- An outcome that is a result with a property or an expected failure. -/
def Yields {α : Type} (r : Except EvalError α) (Q : α → Prop) : Prop :=
  match r with
  | .ok a => Q a
  | .error e => e.isExpected

namespace Yields

variable {α β : Type} {r : Except EvalError α} {Q : α → Prop} {S : β → Prop}

theorem bind {f : α → Except EvalError β} (h : Yields r Q) (hf : ∀ a, Q a → Yields (f a) S) :
    Yields (r >>= f) S := by
  cases r with
  | ok a => exact hf a h
  | error e => exact h

theorem ok_bind {a : α} {f : α → Except EvalError β} (h : r = .ok a) (hf : Yields (f a) S) :
    Yields (r >>= f) S := by
  rw [h]
  exact hf

theorem map {f : α → β} (h : Yields r Q) (hf : ∀ a, Q a → S (f a)) : Yields (r.map f) S := by
  cases r with
  | ok a => exact hf a h
  | error e => exact h

theorem mono {Q' : α → Prop} (h : Yields r Q) (hQ : ∀ a, Q a → Q' a) : Yields r Q' := by
  cases r with
  | ok a => exact hQ a h
  | error e => exact h

theorem orElse {e : EvalError} {o : Option α} (he : e.isExpected) (h : ∀ a, o = some a → Q a) :
    Yields (Operation.orElse e o) Q := by
  cases o with
  | some a => exact h a rfl
  | none => exact he

end Yields

variable {cat : Catalog}

namespace Signatures

theorem mem_unary {types : List Ty} {t : Ty} : [t] ∈ unary types ↔ t ∈ types := by
  simp [unary]

theorem mem_binary {types : List Ty} {s t : Ty} : [s, t] ∈ binary types ↔ s = t ∧ s ∈ types := by
  simp only [binary, List.mem_map, List.cons.injEq, and_true]
  constructor
  · rintro ⟨u, hu, rfl, rfl⟩
    exact ⟨rfl, hu⟩
  · rintro ⟨rfl, hs⟩
    exact ⟨s, hs, rfl, rfl⟩

theorem mem_withNullable {types : List Ty} {t : Ty} :
    t ∈ withNullable types ↔ ∃ u ∈ types, t = u ∨ t = .nullable u := by
  simp only [withNullable, List.mem_append, List.mem_map]
  constructor
  · rintro (ht | ⟨u, hu, rfl⟩)
    · exact ⟨t, ht, Or.inl rfl⟩
    · exact ⟨u, hu, Or.inr rfl⟩
  · rintro ⟨u, hu, rfl | rfl⟩
    · exact Or.inl hu
    · exact Or.inr ⟨u, hu, rfl⟩

end Signatures

/-! ### Arithmetic -/

/-- The types of numbers that arithmetic is defined on. -/
def Ty.isArithmetic : Ty → Bool
  | .int k => k.isArithmetic
  | .single | .double | .decimal => true
  | _ => false

/-- The operators of arithmetic. -/
def BinaryOp.isArithmetic : BinaryOp → Bool
  | .add | .subtract | .multiply | .divide | .modulo => true
  | _ => false

namespace Value

open Catalog

theorem yields_wordArithmetic {op : BinaryOp} (hop : op.isArithmetic) {k : IntKind} (m n : Word k) :
    Yields (Word.arithmetic k op m n) fun _ => True := by
  cases op with
  | add | subtract | multiply => exact trivial
  | divide | modulo =>
      simp only [Word.arithmetic]
      split
      · rfl
      · split
        · exact trivial
        · rfl
  | _ => simp [BinaryOp.isArithmetic] at hop

theorem yields_binaryArithmetic {op : BinaryOp} (hop : op.isArithmetic) {f : Format} (x y : Binary f) :
    Yields (Binary.arithmetic op x y) fun _ => True := by
  cases op with
  | add | subtract | multiply | divide | modulo => exact trivial
  | _ => simp [BinaryOp.isArithmetic] at hop

theorem yields_decimalArithmetic {op : BinaryOp} (hop : op.isArithmetic) (d e : Decimal) :
    Yields (Decimal.arithmetic op d e) fun _ => True := by
  have hchecked : ∀ o : Option Decimal, Yields (Decimal.checked op o) fun _ => True := by
    intro o
    cases o with
    | some d => exact trivial
    | none => rfl
  cases op with
  | add | subtract | multiply => exact hchecked _
  | divide | modulo =>
      simp only [Decimal.arithmetic]
      split
      · rfl
      · exact hchecked _
  | _ => simp [BinaryOp.isArithmetic] at hop

/-- Arithmetic on numbers of one type gives a number of that type. -/
theorem yields_arithmetic_number {op : BinaryOp} (hop : op.isArithmetic) {t : Ty} (ht : t.isArithmetic)
    {a b : Value} (ha : cat.conforms a t) (hb : cat.conforms b t) :
    Yields (arithmetic op a b) fun v => cat.conforms v t := by
  cases t with
  | int k =>
      obtain ⟨m, rfl⟩ := conforms_int.mp ha
      obtain ⟨n, rfl⟩ := conforms_int.mp hb
      have hk : k.isArithmetic = true := ht
      simp only [arithmetic, hk, dif_pos, if_true]
      exact (yields_wordArithmetic hop m n).map fun w _ => conforms_int.mpr ⟨w, rfl⟩
  | single =>
      obtain ⟨x, rfl⟩ := conforms_single.mp ha
      obtain ⟨y, rfl⟩ := conforms_single.mp hb
      exact (yields_binaryArithmetic hop x y).map fun z _ => conforms_single.mpr ⟨z, rfl⟩
  | double =>
      obtain ⟨x, rfl⟩ := conforms_double.mp ha
      obtain ⟨y, rfl⟩ := conforms_double.mp hb
      exact (yields_binaryArithmetic hop x y).map fun z _ => conforms_double.mpr ⟨z, rfl⟩
  | decimal =>
      obtain ⟨d, rfl⟩ := conforms_decimal.mp ha
      obtain ⟨e, rfl⟩ := conforms_decimal.mp hb
      exact (yields_decimalArithmetic hop d e).map fun z _ => conforms_decimal.mpr ⟨z, rfl⟩
  | _ => simp [Ty.isArithmetic] at ht

theorem yields_ofDateTime? (o : Option DateTime) :
    Yields (ofDateTime? o) fun v => cat.conforms v .dateTime := by
  cases o with
  | some t => exact conforms_dateTime.mpr ⟨t, rfl⟩
  | none => rfl

theorem yields_ofTimeSpan? (o : Option TimeSpan) :
    Yields (ofTimeSpan? o) fun v => cat.conforms v .timeSpan := by
  cases o with
  | some d => exact conforms_timeSpan.mpr ⟨d, rfl⟩
  | none => rfl

/-- The types of present operands that an arithmetic operator takes, and that of its result. -/
inductive ArithmeticOn : BinaryOp → Ty → Ty → Ty → Prop
  | number {op : BinaryOp} {t : Ty} (hop : op.isArithmetic) (ht : t.isArithmetic) :
      ArithmeticOn op t t t
  | later : ArithmeticOn .add .dateTime .timeSpan .dateTime
  | before : ArithmeticOn .subtract .dateTime .timeSpan .dateTime
  | longer : ArithmeticOn .add .timeSpan .timeSpan .timeSpan
  | shorter : ArithmeticOn .subtract .timeSpan .timeSpan .timeSpan
  | difference : ArithmeticOn .subtract .dateTime .dateTime .timeSpan

theorem yields_arithmetic {op : BinaryOp} {s t r : Ty} (h : ArithmeticOn op s t r) {a b : Value}
    (ha : cat.conforms a s) (hb : cat.conforms b t) :
    Yields (arithmetic op a b) fun v => cat.conforms v r := by
  cases h with
  | number hop ht => exact yields_arithmetic_number hop ht ha hb
  | later | before =>
      obtain ⟨m, rfl⟩ := conforms_dateTime.mp ha
      obtain ⟨d, rfl⟩ := conforms_timeSpan.mp hb
      exact yields_ofDateTime? _
  | longer | shorter =>
      obtain ⟨d, rfl⟩ := conforms_timeSpan.mp ha
      obtain ⟨e, rfl⟩ := conforms_timeSpan.mp hb
      exact yields_ofTimeSpan? _
  | difference =>
      obtain ⟨m, rfl⟩ := conforms_dateTime.mp ha
      obtain ⟨n, rfl⟩ := conforms_dateTime.mp hb
      exact conforms_timeSpan.mpr ⟨_, rfl⟩

theorem ArithmeticOn.isValueType {op : BinaryOp} {s t r : Ty} (h : ArithmeticOn op s t r) :
    s.isValueType ∧ t.isValueType ∧ r.isNullable = false := by
  cases h with
  | number _ ht =>
      cases s with
      | int _ | single | double | decimal => exact ⟨rfl, rfl, rfl⟩
      | _ => simp [Ty.isArithmetic] at ht
  | _ => exact ⟨rfl, rfl, rfl⟩

/-- Absent operands make the result absent. -/
theorem yields_arithmetic_nullable {op : BinaryOp} {s t r : Ty} (h : ArithmeticOn op s t r)
    {a b : Value} (ha : cat.conforms a (.nullable s)) (hb : cat.conforms b (.nullable t)) :
    Yields (arithmetic op a b) fun v => cat.conforms v (.nullable r) := by
  rcases conforms_nullable ha with rfl | ha
  · rw [arithmetic]
    exact rfl
  · rcases conforms_nullable hb with rfl | hb
    · have hnull : arithmetic op a .null = .ok .null := by cases a <;> rfl
      rw [hnull]
      exact rfl
    · exact (yields_arithmetic h ha hb).mono fun v hv => conforms_toNullable hv h.isValueType.2.2

/-- The overloads that operators of arithmetic are resolved against. -/
def arithmeticOverloads : BinaryOp → List (List Ty)
  | .add => Signatures.add
  | .subtract => Signatures.subtract
  | .multiply | .divide | .modulo => Signatures.arithmetic
  | _ => []

theorem mem_arithmetic {s t : Ty} (h : [s, t] ∈ Signatures.arithmetic) :
    s = t ∧ ∃ u : Ty, u.isArithmetic ∧ (s = u ∨ s = .nullable u) := by
  have hbase : ∀ u ∈ ([.int32, .uint32, .int64, .uint64, .single, .double, .decimal] : List Ty),
      u.isArithmetic := by decide
  obtain ⟨rfl, hs⟩ := Signatures.mem_binary.mp h
  obtain ⟨u, hu, hform⟩ := Signatures.mem_withNullable.mp hs
  exact ⟨rfl, u, hbase u hu, hform⟩

theorem arithmeticType_number {op : BinaryOp} {u : Ty} (hu : u.isArithmetic) :
    Typing.arithmeticType op u u = u ∧
      Typing.arithmeticType op (.nullable u) (.nullable u) = .nullable u := by
  have hdate : u ≠ .dateTime := by
    rintro rfl
    simp [Ty.isArithmetic] at hu
  have hunder : u.underlying ≠ .dateTime := by
    cases u with
    | nullable w => simp [Ty.isArithmetic] at hu
    | dateTime => exact absurd rfl hdate
    | _ => simp [Ty.underlying]
  constructor
  · rw [Typing.arithmeticType, if_neg fun h => hunder h.2.1]
  · rw [Typing.arithmeticType, if_neg fun h => hdate h.2.1]

/-- Every overload of an operator of arithmetic is one the operator is defined on, or its nullable form. -/
theorem arithmeticOn_of_mem {op : BinaryOp} {s t : Ty} (h : [s, t] ∈ arithmeticOverloads op) :
    ∃ s' t' r, ArithmeticOn op s' t' r ∧
      ((s = s' ∧ t = t' ∧ Typing.arithmeticType op s t = r) ∨
        (s = .nullable s' ∧ t = .nullable t' ∧ Typing.arithmeticType op s t = .nullable r)) := by
  have hnumber : op.isArithmetic → [s, t] ∈ Signatures.arithmetic → ∃ s' t' r, ArithmeticOn op s' t' r ∧
      ((s = s' ∧ t = t' ∧ Typing.arithmeticType op s t = r) ∨
        (s = .nullable s' ∧ t = .nullable t' ∧ Typing.arithmeticType op s t = .nullable r)) := by
    intro hop hmem
    obtain ⟨rfl, u, hu, rfl | rfl⟩ := mem_arithmetic hmem
    · exact ⟨s, s, s, .number hop hu, Or.inl ⟨rfl, rfl, (arithmeticType_number hu).1⟩⟩
    · exact ⟨u, u, u, .number hop hu, Or.inr ⟨rfl, rfl, (arithmeticType_number hu).2⟩⟩
  cases op with
  | add =>
      rcases List.mem_append.mp h with h | h
      · exact hnumber rfl h
      · simp only [Signatures.dates, List.mem_cons, List.cons.injEq, List.not_mem_nil, and_true,
          or_false] at h
        rcases h with ⟨rfl, rfl⟩ | ⟨rfl, rfl⟩ | ⟨rfl, rfl⟩ | ⟨rfl, rfl⟩
        · exact ⟨_, _, _, .later, Or.inl ⟨rfl, rfl, rfl⟩⟩
        · exact ⟨_, _, _, .later, Or.inr ⟨rfl, rfl, rfl⟩⟩
        · exact ⟨_, _, _, .longer, Or.inl ⟨rfl, rfl, rfl⟩⟩
        · exact ⟨_, _, _, .longer, Or.inr ⟨rfl, rfl, rfl⟩⟩
  | subtract =>
      rcases List.mem_append.mp h with h | h
      · rcases List.mem_append.mp h with h | h
        · exact hnumber rfl h
        · simp only [Signatures.dates, List.mem_cons, List.cons.injEq, List.not_mem_nil, and_true,
            or_false] at h
          rcases h with ⟨rfl, rfl⟩ | ⟨rfl, rfl⟩ | ⟨rfl, rfl⟩ | ⟨rfl, rfl⟩
          · exact ⟨_, _, _, .before, Or.inl ⟨rfl, rfl, rfl⟩⟩
          · exact ⟨_, _, _, .before, Or.inr ⟨rfl, rfl, rfl⟩⟩
          · exact ⟨_, _, _, .shorter, Or.inl ⟨rfl, rfl, rfl⟩⟩
          · exact ⟨_, _, _, .shorter, Or.inr ⟨rfl, rfl, rfl⟩⟩
      · simp only [List.mem_cons, List.cons.injEq, List.not_mem_nil, and_true, or_false] at h
        rcases h with ⟨rfl, rfl⟩ | ⟨rfl, rfl⟩
        · exact ⟨_, _, _, .difference, Or.inl ⟨rfl, rfl, rfl⟩⟩
        · exact ⟨_, _, _, .difference, Or.inr ⟨rfl, rfl, rfl⟩⟩
  | multiply | divide | modulo => exact hnumber rfl h
  | _ => simp [arithmeticOverloads] at h

theorem isValueType_of_mem_overloads {op : BinaryOp} {s t : Ty} (h : [s, t] ∈ arithmeticOverloads op) :
    s.isValueType ∧ t.isValueType := by
  obtain ⟨s', t', r, hon, ⟨rfl, rfl, -⟩ | ⟨rfl, rfl, -⟩⟩ := arithmeticOn_of_mem h
  · exact ⟨hon.isValueType.1, hon.isValueType.2.1⟩
  · exact ⟨rfl, rfl⟩

/-- Arithmetic by an overload gives a value of the type that typing finds for it. -/
theorem yields_arithmetic_overload {op : BinaryOp} {s t : Ty} (h : [s, t] ∈ arithmeticOverloads op)
    {a b : Value} (ha : cat.conforms a s) (hb : cat.conforms b t) :
    Yields (arithmetic op a b) fun v => cat.conforms v (Typing.arithmeticType op s t) := by
  obtain ⟨s', t', r, hon, ⟨rfl, rfl, hr⟩ | ⟨rfl, rfl, hr⟩⟩ := arithmeticOn_of_mem h
  · rw [hr]
    exact yields_arithmetic hon ha hb
  · rw [hr]
    exact yields_arithmetic_nullable hon ha hb

/-! ### Comparison and truth -/

theorem yields_compare (a b : Value) : Yields (a.compare b) fun _ => True := by
  unfold compare
  split <;> try exact trivial
  split
  · exact trivial
  · rfl

/-- A rule that leaves the absent value absent and keeps some types keeps their nullable forms too. -/
theorem yields_withNullable {f : Value → Except EvalError Value} {types : List Ty}
    (hnull : f .null = .ok .null) (htypes : ∀ u ∈ types, u.isNullable = false)
    (h : ∀ u ∈ types, ∀ a, cat.conforms a u → Yields (f a) fun v => cat.conforms v u) {t : Ty}
    (ht : t ∈ Signatures.withNullable types) {a : Value} (ha : cat.conforms a t) :
    Yields (f a) fun v => cat.conforms v t := by
  obtain ⟨u, hu, rfl | rfl⟩ := Signatures.mem_withNullable.mp ht
  · exact h t hu a ha
  · rcases conforms_nullable ha with rfl | ha
    · rw [hnull]
      exact rfl
    · exact (h u hu a ha).mono fun v hv => conforms_toNullable hv (htypes u hu)

theorem yields_negate {t : Ty} (ht : [t] ∈ Signatures.negation) {a : Value} (ha : cat.conforms a t) :
    Yields a.negate fun v => cat.conforms v t := by
  refine yields_withNullable (f := negate) rfl (by decide) ?_ (Signatures.mem_unary.mp ht) ha
  intro u hu a ha
  simp only [List.mem_cons, List.not_mem_nil, or_false] at hu
  rcases hu with rfl | rfl | rfl | rfl | rfl
  · obtain ⟨n, rfl⟩ := conforms_int.mp ha
    exact conforms_int.mpr ⟨_, rfl⟩
  · obtain ⟨n, rfl⟩ := conforms_int.mp ha
    exact conforms_int.mpr ⟨_, rfl⟩
  · obtain ⟨x, rfl⟩ := conforms_single.mp ha
    exact conforms_single.mpr ⟨_, rfl⟩
  · obtain ⟨x, rfl⟩ := conforms_double.mp ha
    exact conforms_double.mpr ⟨_, rfl⟩
  · obtain ⟨d, rfl⟩ := conforms_decimal.mp ha
    exact conforms_decimal.mpr ⟨_, rfl⟩

theorem yields_invert {t : Ty} (ht : [t] ∈ Signatures.not) {a : Value} (ha : cat.conforms a t) :
    Yields a.invert fun v => cat.conforms v t := by
  refine yields_withNullable (f := invert) rfl (by decide) ?_ (Signatures.mem_unary.mp ht) ha
  intro u hu a ha
  obtain rfl := List.mem_singleton.mp hu
  obtain ⟨b, rfl⟩ := conforms_boolean.mp ha
  exact conforms_boolean.mpr ⟨_, rfl⟩

end Value

namespace Eval

open Catalog

theorem yields_inOrder (test : Ordering → Bool) (a b : Value) :
    Yields (inOrder test a b) fun v => cat.conforms v .boolean := by
  unfold inOrder
  split
  · exact conforms_boolean.mpr ⟨false, rfl⟩
  · exact (Value.yields_compare a b).map fun order _ => conforms_boolean.mpr ⟨test order, rfl⟩

/-- A comparison decides whatever it can compare. -/
theorem yields_strict_comparison {op : BinaryOp}
    (hop : op.isEquality ∨ op ∈ [.lessThan, .lessThanOrEqual, .greaterThan, .greaterThanOrEqual])
    (a b : Value) : Yields (strict op a b) fun v => cat.conforms v .boolean := by
  cases op with
  | equal | notEqual => exact conforms_boolean.mpr ⟨_, rfl⟩
  | lessThan | lessThanOrEqual | greaterThan | greaterThanOrEqual => exact yields_inOrder _ a b
  | _ => simp [BinaryOp.isEquality] at hop

/-- A connective of truth values is one, and absent only where operands may be. -/
theorem conforms_connective {t : Ty} (ht : [t, t] ∈ Signatures.logical) {decisive : Bool} {a b : Value}
    (ha : cat.conforms a t) (hb : cat.conforms b t) (hopen : isBool decisive a = false) :
    cat.conforms (connective decisive a b) t := by
  obtain ⟨-, hmem⟩ := Signatures.mem_binary.mp ht
  obtain ⟨u, hu, rfl | rfl⟩ := Signatures.mem_withNullable.mp hmem
  · obtain rfl := List.mem_singleton.mp hu
    obtain ⟨p, rfl⟩ := conforms_boolean.mp ha
    obtain ⟨q, rfl⟩ := conforms_boolean.mp hb
    cases decisive <;> cases p <;> cases q <;> simp_all [isBool, connective, conforms, Ty.underlying]
  · obtain rfl := List.mem_singleton.mp hu
    unfold connective
    split
    · rfl
    · split
      · rfl
      · rfl

end Eval

/-! ### Conversion -/

namespace Number

open Catalog

/-- A number becomes a value of the target type or does not fit it. -/
theorem yields_convertInt (n : Int) {t target : Ty} (ht : target.underlying = t) (checked : Bool) :
    Yields (convertInt n t checked) fun v => cat.conforms v target := by
  cases t with
  | int k =>
      simp only [convertInt]
      split
      · cases Word.ofInt? k n with
        | some w => simp [Yields, conforms, ht]
        | none => rfl
      · simp [Yields, conforms, ht]
  | single | double => simp [convertInt, Yields, conforms, ht]
  | decimal =>
      simp only [convertInt]
      cases Decimal.ofInt? n with
      | some d => simp [Yields, conforms, ht]
      | none => rfl
  | char =>
      simp only [convertInt]
      cases char? n with
      | some c => simp [Yields, conforms, ht]
      | none => rfl
  | enum e =>
      simp only [convertInt]
      cases Word.ofInt? .int64 n with
      | some w => simp [Yields, conforms, ht]
      | none => rfl
  | _ => rfl

theorem yields_convertFloat (x : Double) {t target : Ty} (ht : target.underlying = t) (checked : Bool) :
    Yields (convertFloat x t checked) fun v => cat.conforms v target := by
  unfold convertFloat
  split
  · simp [Yields, conforms, ht]
  · simp [Yields, conforms, ht]
  · split
    · simp [Yields, conforms, ht]
    · rfl
  · split
    · rfl
    · exact yields_convertInt _ ht checked

theorem yields_convertDecimal (d : Decimal) {t target : Ty} (ht : target.underlying = t) :
    Yields (convertDecimal d t) fun v => cat.conforms v target := by
  unfold convertDecimal
  split
  · simp [Yields, conforms, ht]
  · simp [Yields, conforms, ht]
  · simp [Yields, conforms, ht]
  · exact yields_convertInt _ ht true

theorem yields_convert (n : Number) {t target : Ty} (ht : target.underlying = t) (checked : Bool) :
    Yields (n.convert t checked) fun v => cat.conforms v target := by
  cases n with
  | int n => exact yields_convertInt n ht checked
  | float x => exact yields_convertFloat x ht checked
  | decimal d => exact yields_convertDecimal d ht

end Number

namespace Catalog

/-- The types that values can be converted to: those without items. -/
def isCastTarget (t : Ty) : Bool :=
  match t.underlying with
  | .list _ | .grouping _ _ => false
  | _ => true

theorem yields_castTo {v : Value} {source target : Ty} (hv : cat.conforms v source)
    (hnull : v.isNull = false) (htarget : isCastTarget target) (checked : Bool) :
    Yields (cat.castTo v target.underlying checked) fun w => cat.conforms w target := by
  have hnumber : ∀ {r : Except EvalError Value},
      (∀ n, Number.ofValue? v = some n → r = n.convert target.underlying checked) →
      (Number.ofValue? v = none → r = .error (.invalidCast v.kindName target.underlying)) →
      Yields r fun w => cat.conforms w target := by
    intro r hsome hnone
    cases hv : Number.ofValue? v with
    | some n =>
        rw [hsome n hv]
        exact Number.yields_convert _ rfl checked
    | none =>
        rw [hnone hv]
        rfl
  cases ht : target.underlying with
  | object =>
      exact (conforms_congr (s := .object) hnull ht.symm).symm.trans (conforms_object hv)
  | string =>
      cases v with
      | string s => simp [castTo, Value.string?, Yields, conforms, ht]
      | _ => rfl
  | cls c =>
      cases v with
      | object d fields items =>
          simp only [castTo]
          split
          · rename_i hsub
            simp only [conforms, Bool.and_eq_true] at hv
            simp only [Yields, conforms, ht, Bool.and_eq_true]
            exact ⟨⟨hsub, hv.1.2⟩, hv.2⟩
          · rfl
      | _ => rfl
  | list _ | grouping _ _ => simp [isCastTarget, ht] at htarget
  | _ =>
      rw [ht] at hnumber
      exact hnumber (fun n hn => by simp only [castTo, hn]) fun hn => by simp only [castTo, hn]

/-- A conversion gives a value of the target type or fails. -/
theorem yields_convert {v : Value} {source target : Ty} (hv : cat.conforms v source)
    (htarget : source.underlying = target.underlying ∨ isCastTarget target) (checked : Bool) :
    Yields (cat.convert v source target checked) fun w => cat.conforms w target := by
  unfold convert
  split
  · rename_i hnull
    split
    · rename_i hadmits
      rw [Yields, conforms_null]
      exact hadmits
    · rfl
  · rename_i hnull
    replace hnull : v.isNull = false := by simpa using hnull
    split
    · rename_i hsame
      exact (conforms_congr hnull hsame).symm.trans hv
    · rename_i hdiffers
      exact yields_castTo hv hnull (htarget.resolve_left hdiffers) checked

end Catalog

end RowQuery
