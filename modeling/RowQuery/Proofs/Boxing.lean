import RowQuery.Proofs.BinaryExactness
import RowQuery.Proofs.IntegerConversion
import RowQuery.Proofs.Soundness

/-!
Values of value types as objects. A value is boxed by a conversion to the general type, which keeps it as it is, and
unboxed by a conversion back to its type or to the nullable form of it. The compiler has both conversions for every
value type, because none of the constructors takes an object. Unboxing goes by way of the number that a value is, so
what comes back is the value, if it is a number of any kind, a character or a member of an enumeration; truth values,
moments and spans of time are no numbers and are refused.
-/

namespace RowQuery

variable {cat : Catalog} {x : Expr} {t : Ty} {v : Value}

/-! ### The conversions of the compiler -/

theorem Overload.choose_eq_none {α : Type} {params : α → List Ty} {members : List α} {args : List Expr}
    (h : ∀ m ∈ members, promoteAll? cat args (params m) = none) : choose cat params members args = .none := by
  have hnone : applicable cat (members.map params) args = [] := by
    rw [applicable_eq, List.filterMap_eq_nil_iff]
    rintro ⟨candidate, index⟩ hzip
    obtain ⟨m, hm, rfl⟩ := List.mem_map.mp (List.fst_mem_of_mem_zipIdx hzip)
    rw [applied?, h m hm]
    rfl
  simp [choose, resolve, winners, hnone]

/-- What is boxed is not unboxed unless that is asked for. -/
theorem Catalog.promote?_boxed (hvalue : t.isValueType) (hplain : t.isNullable = false) :
    cat.promote? (.convert .object false x) t false = none := by
  cases t with
  | object | string | list | grouping | cls => cases hvalue
  | nullable => cases hplain
  | _ => rfl

/-- The constructors of value types take numbers. -/
theorem Catalog.constructors_value (hvalue : t.isValueType) {m : Method} (hm : m ∈ cat.constructors t) :
    ∃ p ps, m.params = p :: ps ∧ p.isValueType ∧ p.isNullable = false := by
  cases t with
  | dateTime =>
      replace hm : m ∈ Predefined.dateTime.constructors := hm
      simp only [Predefined.dateTime, List.mem_cons, List.not_mem_nil, or_false] at hm
      rcases hm with rfl | rfl <;> exact ⟨_, _, rfl, rfl, rfl⟩
  | timeSpan =>
      replace hm : m ∈ Predefined.timeSpan.constructors := hm
      obtain rfl := List.mem_singleton.mp hm
      exact ⟨_, _, rfl, rfl, rfl⟩
  | decimal =>
      obtain ⟨source, hsource, rfl⟩ := List.mem_map.mp (show m ∈ Predefined.decimal.constructors from hm)
      refine ⟨source, [], rfl, ?_⟩
      clear hm
      revert source
      decide
  | object | string | list | grouping | cls => cases hvalue
  | _ => cases hm

/-! ### What is unboxed -/

theorem Number.char?_toNat (c : Char) : char? c.toNat = some c := by
  have hvalid : (c.toNat : Int).toNat.isValidChar := c.valid
  rw [char?, if_pos ⟨by omega, hvalid⟩]
  simp

theorem Word.ofInt?_val {k : IntKind} (w : Word k) : ofInt? k w.val = some w := by
  rw [ofInt?, dif_pos w.holds]

/-- A value with one pattern for each sign in place of those that stand for no number. -/
def Value.canonical : Value → Value
  | .single y => .single (if y.isNan then .nan y.negative else y)
  | v => v

theorem Value.canonical_eq (v : Value) :
    v.canonical = v ∨ ∃ y : Single, v = .single y ∧ y.isNan ∧ v.canonical = .single (.nan y.negative) := by
  cases v with
  | single y =>
      by_cases hnan : y.isNan
      · exact Or.inr ⟨y, rfl, hnan, by simp [canonical, hnan]⟩
      · exact Or.inl (by simp [canonical, hnan])
  | _ => exact Or.inl rfl

theorem Ty.underlying_of_plain (h : t.isNullable = false) : t.underlying = t := by
  cases t with
  | nullable => cases h
  | _ => rfl

/-- A value is cast to its own type by way of the number that it is. -/
theorem Catalog.castTo_self (hvalue : t.isValueType) (hplain : t.isNullable = false) (hv : cat.conforms v t) :
    cat.castTo v t false =
      if t ∈ [Ty.boolean, .dateTime, .timeSpan] then .error (.invalidCast v.kindName t) else .ok v.canonical := by
  cases t with
  | boolean =>
      obtain ⟨b, rfl⟩ := conforms_boolean.mp hv
      rfl
  | dateTime =>
      obtain ⟨m, rfl⟩ := conforms_dateTime.mp hv
      rfl
  | timeSpan =>
      obtain ⟨d, rfl⟩ := conforms_timeSpan.mp hv
      rfl
  | char =>
      obtain ⟨c, rfl⟩ := conforms_char.mp hv
      simp [castTo, Number.ofValue?, Number.convert, Number.convertInt, Number.char?_toNat, Value.canonical]
  | int k =>
      obtain ⟨n, rfl⟩ := conforms_int.mp hv
      simp [castTo, Number.ofValue?, Number.convert, Number.convertInt, Word.wrap_val, Value.canonical]
  | single =>
      obtain ⟨y, rfl⟩ := conforms_single.mp hv
      simp [castTo, Number.ofValue?, Number.convert, Number.convertFloat, Binary.convert_convert_single,
        Value.canonical]
  | double =>
      obtain ⟨y, rfl⟩ := conforms_double.mp hv
      rfl
  | decimal =>
      obtain ⟨d, rfl⟩ := conforms_decimal.mp hv
      rfl
  | enum e =>
      obtain ⟨n, rfl⟩ := conforms_enum.mp hv
      simp [castTo, Number.ofValue?, Number.convert, Number.convertInt, Word.ofInt?_val, Value.canonical]
  | object | string | list | grouping | cls => cases hvalue
  | nullable => cases hplain

namespace Typing

theorem construction_boxed (hvalue : x.ty.isValueType) :
    construction cat .object [x] = .ok (.convert .object false x) := by
  have hne : x.ty ≠ .object := by
    intro h
    rw [h] at hvalue
    cases hvalue
  have hnone : Overload.choose cat Method.params (cat.constructors .object) [x] = .none := rfl
  simp only [construction, hnone, conversion, if_neg hne]
  simp [Ty.isValueType, Catalog.isAssignable]

theorem construction_unboxed {target : Ty} (hvalue : target.isValueType) :
    construction cat target [.convert .object false x] = .ok (.convert target false (.convert .object false x)) := by
  have hnone : Overload.choose cat Method.params (cat.constructors target) [.convert .object false x] = .none := by
    refine Overload.choose_eq_none fun m hm => ?_
    obtain ⟨p, ps, hparams, hp, hplain⟩ := Catalog.constructors_value hvalue hm
    rw [hparams, Overload.promoteAll?, Catalog.promote?_boxed hp hplain]
    rfl
  have hne : Ty.object ≠ target := by
    rintro rfl
    cases hvalue
  simp only [construction, hnone, conversion, Expr.ty]
  simp [Ty.isValueType, Catalog.isAssignable, hne]

/-- A value of a value type can be boxed, and unboxed as a value of its type or of the nullable form of it. What is
boxed is the value itself. What is unboxed is that value again, or the pattern with its sign for a number that is none;
but truth values, moments and spans of time are refused. -/
theorem construction_unbox (cat : Catalog) (x : Expr) (hvalue : x.ty.isValueType) (hplain : x.ty.isNullable = false) :
    ∃ boxed, construction cat .object [x] = .ok boxed ∧ ∀ target ∈ [x.ty, .nullable x.ty],
      ∃ unboxed, construction cat target [boxed] = .ok unboxed ∧ unboxed.ty = target ∧
        ∀ (s after : Slots) (v : Value), Eval.exec (cat.eval x) s = (.ok v, after) → cat.conforms v x.ty →
          Eval.exec (cat.eval boxed) s = (.ok v, after) ∧
          (x.ty ∉ [Ty.boolean, .dateTime, .timeSpan] →
            Eval.exec (cat.eval unboxed) s = (.ok v, after) ∨
              ∃ y : Single, v = .single y ∧ y.isNan ∧
                Eval.exec (cat.eval unboxed) s = (.ok (.single (.nan y.negative)), after)) ∧
          (x.ty ∈ [Ty.boolean, .dateTime, .timeSpan] →
            Eval.exec (cat.eval unboxed) s = (.error (.invalidCast v.kindName x.ty), after)) := by
  refine ⟨.convert .object false x, construction_boxed hvalue, fun target htarget => ?_⟩
  have hunder : target.underlying = x.ty ∧ target.isValueType := by
    simp only [List.mem_cons, List.not_mem_nil, or_false] at htarget
    rcases htarget with rfl | rfl
    · exact ⟨Ty.underlying_of_plain hplain, hvalue⟩
    · exact ⟨rfl, rfl⟩
  refine ⟨_, construction_unboxed hunder.2, rfl, fun s after v hrun hv => ?_⟩
  have hpresent : v.isNull = false := Catalog.isNull_eq_false hv (by simp [Ty.admitsNull, hvalue, hplain])
  have hobject : Ty.object.underlying ≠ x.ty := by
    intro h
    rw [← h] at hvalue
    cases hvalue
  have hbox : cat.convert v x.ty .object false = .ok v := by
    rw [Catalog.convert, hpresent, if_neg Bool.false_ne_true]
    split <;> rfl
  have hunbox : cat.convert v .object target false =
      if x.ty ∈ [Ty.boolean, .dateTime, .timeSpan] then .error (.invalidCast v.kindName x.ty) else .ok v.canonical := by
    rw [Catalog.convert, hpresent, if_neg Bool.false_ne_true, hunder.1, if_neg hobject]
    exact Catalog.castTo_self hvalue hplain hv
  have hboxed := Eval.exec_convert .object false hrun
  rw [hbox] at hboxed
  have hunboxed := Eval.exec_convert target false hboxed
  rw [Expr.ty, hunbox] at hunboxed
  refine ⟨hboxed, fun hnumber => ?_, fun hother => ?_⟩
  · rw [hunboxed, if_neg hnumber]
    rcases v.canonical_eq with heq | ⟨y, hy, hnan, heq⟩
    · exact Or.inl (by rw [heq])
    · exact Or.inr ⟨y, hy, hnan, by rw [heq]⟩
  · rw [hunboxed, if_pos hother]

/-- The smallest number of the short format, unboxed as a value that may be absent. -/
theorem construction_unbox_smallest :
    let x : Expr := .constant .single (.single ⟨1#32⟩)
    ∃ boxed unboxed, construction .empty .object [x] = .ok boxed ∧
      construction .empty (.nullable .single) [boxed] = .ok unboxed ∧
      Eval.exec (Catalog.empty.eval unboxed) [] = (.ok (.single ⟨1#32⟩), []) := by
  intro x
  obtain ⟨boxed, hboxed, hunbox⟩ := construction_unbox .empty x rfl rfl
  obtain ⟨unboxed, hunboxed, -, hruns⟩ := hunbox (.nullable .single) (by simp [x, Expr.ty])
  refine ⟨boxed, unboxed, hboxed, hunboxed, ?_⟩
  obtain ⟨-, hnumber, -⟩ := hruns [] [] (.single ⟨1#32⟩) rfl rfl
  rcases hnumber (by decide) with hsame | ⟨y, hy, hnan, -⟩
  · exact hsame
  · cases hy
    exact absurd hnan (by decide)

/-- A truth value that was boxed cannot be unboxed, although the compiler has the conversion. -/
theorem construction_unbox_boolean :
    ∃ l e, Environment.cells.Compiles [] none "Boolean(Object(true))" [] l ∧ l.body.ty = .boolean ∧
      Catalog.cells.evalLambda l [] = .error e ∧ e.message .empty = "cannot convert Boolean to Boolean" := by
  have hrun : ((Environment.cells.compile [] none "Boolean(Object(true))" []).exec .empty).1.toOption.any (fun l =>
      l.body.ty = .boolean && (failure? (Catalog.cells.evalLambda l [])).any fun e =>
        e.message .empty = "cannot convert Boolean to Boolean") = true := by
    decide +kernel
  obtain ⟨l, hcompiles, hcheck⟩ := Environment.exists_compiles hrun
  obtain ⟨htype, hfails⟩ := Bool.and_eq_true_iff.mp hcheck
  obtain ⟨e, he, hmessage⟩ := failure?_any.mp hfails
  exact ⟨l, e, hcompiles, of_decide_eq_true htype, he, of_decide_eq_true hmessage⟩

end Typing

end RowQuery
