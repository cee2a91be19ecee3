import RowQuery.Proofs.Compatibility
import RowQuery.Proofs.IntegerConversion
import RowQuery.Proofs.TypedEvaluation

/-!
What promotion does to values. A promoted expression never fails where the expression does not: an absent value
stays absent because the type it goes to admits that, a reference is passed on as it is, and the conversions
between value types that are put in are those that always succeed. Integers stay the same numbers, also as
decimals: every word is below the limit of decimals, and the digits of a literal are read as the number they
denote.
-/

namespace RowQuery

/-- The number that an integer or a decimal is. -/
def Value.rational? : Value → Option Rat
  | .int _ n => some (.ofInt n.val)
  | .decimal d => some (mkRat d.signedMantissa (10 ^ d.scale))
  | _ => none

theorem Value.rational?_decimal {d : Decimal} {n : Int} (hmantissa : d.signedMantissa = n) (hscale : d.scale = 0) :
    (Value.decimal d).rational? = some (.ofInt n) := by
  have hone : (10 : Nat) ^ 0 = 1 := rfl
  rw [rational?, hmantissa, hscale, hone, Rat.mkRat_one]
  rfl

/-! ### Integers as decimals -/

theorem Word.natAbs_lt_limit {k : IntKind} (w : Word k) : w.val.natAbs < Decimal.limit := by
  obtain ⟨hleast, hgreatest⟩ := w.holds
  have hlow : -18446744073709551616 ≤ k.least := by cases k <;> decide
  have hhigh : k.greatest ≤ 18446744073709551616 := by cases k <;> decide
  have hlimit : Decimal.limit = 79228162514264337593543950336 := by decide
  omega

theorem Decimal.signed?_eq_some (negative : Bool) {m : Nat} (h : m < limit) :
    ∃ d, signed? negative m 0 = some d ∧ d.scale = 0 ∧ d.signedMantissa = if negative then -(m : Int) else m := by
  refine ⟨_, dif_pos ⟨h, Nat.zero_le _⟩, rfl, ?_⟩
  rw [signedMantissa]
  cases negative with
  | false => rfl
  | true =>
      by_cases hm : m = 0
      · subst hm
        rfl
      · simp [hm]

/-- An integer becomes the decimal of the same number. -/
theorem Decimal.ofInt?_eq_some {n : Int} (h : n.natAbs < limit) :
    ∃ d, ofInt? n = some d ∧ d.scale = 0 ∧ d.signedMantissa = n := by
  obtain ⟨d, hd, hscale, hmantissa⟩ := signed?_eq_some (n < 0) h
  refine ⟨d, hd, hscale, hmantissa.trans ?_⟩
  by_cases hn : n < 0
  · simp only [hn, decide_true, if_true]
    omega
  · simp only [hn, decide_false, Bool.false_eq_true, if_false]
    omega

/-! ### Digits as decimals -/

theorem Digits.le_valueFrom (start : Nat) (cs : List Char) : start ≤ valueFrom start cs := by
  induction cs generalizing start with
  | nil => exact Nat.le_refl start
  | cons c cs ih =>
      have hnext := ih (10 * start + digit c)
      show start ≤ valueFrom (10 * start + digit c) cs
      omega

/-- Digits are read into the mantissa as long as it does not grow too long; after the point each one takes a
place. -/
theorem Decimal.Reading.go_digits {cs : List Char} (hdigits : ∀ c ∈ cs, c.isDigit) (rest : List Char) (r : Reading)
    (hlimit : Digits.valueFrom r.mantissa cs < limit) (hwhole : r.point = false → r.scale = 0)
    (hplaces : r.point → r.scale + cs.length ≤ maxScale) :
    Reading.go r (cs ++ rest) = Reading.go
      ⟨r.negative, r.point, r.started || !cs.isEmpty, Digits.valueFrom r.mantissa cs,
        if r.point then r.scale + cs.length else 0⟩ rest := by
  induction cs generalizing r with
  | nil =>
      obtain ⟨negative, point, started, mantissa, scale⟩ := r
      cases point with
      | true => simp [Digits.valueFrom]
      | false =>
          obtain rfl : scale = 0 := hwhole rfl
          simp [Digits.valueFrom]
  | cons c cs ih =>
      obtain ⟨hc, hcs⟩ := List.forall_mem_cons.mp hdigits
      have hm : 10 * r.mantissa + Digits.digit c < limit := Nat.lt_of_le_of_lt (Digits.le_valueFrom _ cs) hlimit
      have hroom : ¬ (r.point && decide (r.scale = maxScale)) := by
        simp only [Bool.and_eq_true, decide_eq_true_eq, not_and]
        intro hpoint
        have hle := hplaces hpoint
        rw [List.length_cons] at hle
        omega
      rw [List.cons_append, go, if_neg hroom, if_pos hc, if_pos hm]
      have hnext := ih hcs ⟨r.negative, r.point, true, 10 * r.mantissa + Digits.digit c,
        if r.point then r.scale + 1 else 0⟩ hlimit
      cases hpoint : r.point with
      | true =>
          have hle := hplaces hpoint
          rw [List.length_cons] at hle
          simp only [hpoint] at hnext ⊢
          rw [hnext nofun fun _ => by simp only [if_true]; omega]
          simp [Digits.valueFrom, Nat.add_assoc, Nat.add_comm 1]
      | false =>
          simp only [hpoint] at hnext ⊢
          rw [hnext (fun _ => rfl) nofun]
          simp [Digits.valueFrom]

theorem Digits.nat?_eq_some {cs : List Char} {m : Nat} (h : nat? cs = some m) :
    cs.isEmpty = false ∧ (∀ c ∈ cs, c.isDigit) ∧ m = value cs := by
  unfold nat? at h
  split at h
  · cases h
  · rename_i hdigits
    cases h
    simpa using hdigits

/-- Digits with at most one sign before them are read as the decimal of the number that they denote. -/
theorem Decimal.readAny?_of_int? {text : String} {n : Int} (h : Digits.int? text.toList = some n)
    (hn : n.natAbs < limit) : ∃ d, readAny? text = some d ∧ d.scale = 0 ∧ d.signedMantissa = n := by
  have hgo : ∀ {cs : List Char} {m : Nat} (negative : Bool), Digits.nat? cs = some m → m < limit →
      ∃ d, Reading.go ⟨negative, false, false, 0, 0⟩ cs = some d ∧ d.scale = 0 ∧
        d.signedMantissa = if negative then -(m : Int) else m := by
    intro cs m negative hnat hm
    obtain ⟨hne, hdigits, rfl⟩ := Digits.nat?_eq_some hnat
    obtain ⟨d, hd, hscale, hmantissa⟩ := signed?_eq_some negative hm
    refine ⟨d, ?_, hscale, hmantissa⟩
    rw [← List.append_nil cs, Reading.go_digits hdigits [] ⟨negative, false, false, 0, 0⟩ hm (fun _ => rfl) nofun, hne]
    exact hd
  have hread : ∃ d, read? text = some d ∧ d.scale = 0 ∧ d.signedMantissa = n := by
    unfold Digits.int? at h
    unfold read?
    split at h
    · rename_i cs htext
      obtain ⟨m, hm, rfl⟩ := Option.map_eq_some_iff.mp h
      simpa [htext] using hgo false hm hn
    · rename_i cs htext
      obtain ⟨_, hcast, rfl⟩ := Option.map_eq_some_iff.mp h
      obtain ⟨m, hm, heq⟩ := Option.bind_eq_some_iff.mp hcast
      cases heq
      simpa [htext] using hgo true hm (by simpa using hn)
    · rename_i hplus hminus
      obtain ⟨m, hm, rfl⟩ := Option.map_eq_some_iff.mp h
      split
      · rename_i cs htext
        exact absurd htext (hminus cs)
      · rename_i cs htext
        exact absurd htext (hplus cs)
      · simpa using hgo false hm hn
  obtain ⟨d, hd, hscale, hmantissa⟩ := hread
  exact ⟨d, by rw [readAny?, hd]; rfl, hscale, hmantissa⟩

/-! ### Conversions -/

namespace Catalog

variable {cat : Catalog} {s t : Ty} {v : Value}

/-- Absence is admitted by every type that a type which admits it is compatible with. -/
theorem admitsNull_of_compatible (h : Compatible cat s t) (hs : s.admitsNull) : t.admitsNull := by
  cases h with
  | general => rfl
  | subclass => rfl
  | same => exact hs
  | value hvalue _ hnull _ =>
      rw [Ty.admitsNull, hvalue, Bool.not_true, Bool.or_false] at hs
      rw [Ty.admitsNull, hnull hs, Bool.true_or]

/-- A present value passes through an implicit conversion to another type under it: a reference as it is, an
integer as the same number. -/
theorem exists_castTo (hcat : Layered cat.decls) (h : Compatible cat s t) (hne : s.underlying ≠ t.underlying)
    (hv : cat.conforms v s) (hpresent : v.isNull = false) :
    ∃ w, cat.castTo v t.underlying false = .ok w ∧ (t.isValueType = false → w = v) ∧
      (s.isIntegral → t.isIntegral ∨ t.underlying = .decimal → w.rational? = v.rational?) := by
  have hunder : ∀ {u : Ty}, s.underlying = u → u.underlying = u → cat.conforms v u := by
    intro u hu hself
    rw [← conforms_congr hpresent (hu.trans hself.symm)]
    exact hv
  cases h with
  | general => exact ⟨v, rfl, fun _ => rfl, fun _ _ => rfl⟩
  | same => exact absurd rfl hne
  | @subclass c d hcd =>
      cases v with
      | object b fields items =>
          simp only [conforms, Ty.underlying, Bool.and_eq_true] at hv
          have hbd := isSubclass_trans hcat hv.1.1 hcd
          exact ⟨_, by simp [castTo, Ty.underlying, hbd], fun _ => rfl, fun _ _ => rfl⟩
      | null => cases hpresent
      | _ => simp [conforms, Ty.underlying] at hv
  | value hs ht _ hwidens =>
      have hreference : ∀ {w : Value}, t.isValueType = false → w = v := fun h => by simp [ht] at h
      rcases Ty.widens_iff.mp hwidens with heq | ⟨hsingle, hdouble⟩ | ⟨k, hk, hto⟩
      · exact absurd heq hne
      · obtain ⟨x, rfl⟩ := conforms_single.mp (hunder hsingle rfl)
        refine ⟨.double x.convert, by rw [hdouble]; rfl, hreference, fun hintegral => ?_⟩
        obtain ⟨k, hk⟩ := Ty.isIntegral_iff.mp hintegral
        cases hsingle.symm.trans hk
      · obtain ⟨n, rfl⟩ := conforms_int.mp (hunder hk rfl)
        rcases hto with hto | hto | hto | ⟨j, hto, hwithin⟩
        · refine ⟨.single (.ofInt n.val), by rw [hto]; rfl, hreference, fun _ hnumber => ?_⟩
          simp [Ty.isIntegral_iff, hto] at hnumber
        · refine ⟨.double (.ofInt n.val), by rw [hto]; rfl, hreference, fun _ hnumber => ?_⟩
          simp [Ty.isIntegral_iff, hto] at hnumber
        · obtain ⟨d, hd, hscale, hmantissa⟩ := Decimal.ofInt?_eq_some n.natAbs_lt_limit
          refine ⟨.decimal d, ?_, hreference, fun _ _ => Value.rational?_decimal hmantissa hscale⟩
          simp [hto, castTo, Number.ofValue?, Number.convert, Number.convertInt, hd]
        · refine ⟨.int j (.wrap j n.val), by rw [hto]; rfl, hreference, fun _ _ => ?_⟩
          rw [Value.rational?, Value.rational?, Word.val_wrap (n.holds.within hwithin)]

/-- An implicit conversion of a value never fails and keeps the number that an integer is. -/
theorem exists_convert (hcat : Layered cat.decls) (h : Compatible cat s t) (hv : cat.conforms v s) :
    ∃ w, cat.convert v s t false = .ok w ∧ (t.isValueType = false → w = v) ∧ (v = .null → w = .null) ∧
      (s.isIntegral → t.isIntegral ∨ t.underlying = .decimal → w.rational? = v.rational?) := by
  by_cases hnull : v.isNull
  · obtain rfl : v = .null := by cases v <;> first | rfl | cases hnull
    have hadmits : t.admitsNull := admitsNull_of_compatible h (conforms_null.symm.trans hv)
    exact ⟨.null, by rw [convert, if_pos hnull, if_pos hadmits], fun _ => rfl, fun _ => rfl, fun _ _ => rfl⟩
  · have hpresent : v.isNull = false := by simpa using hnull
    have habsent : ∀ {w : Value}, v = .null → w = .null := by
      rintro w rfl
      exact absurd rfl hnull
    by_cases hsame : s.underlying = t.underlying
    · exact ⟨v, by rw [convert, if_neg hnull, if_pos hsame], fun _ => rfl, habsent, fun _ _ => rfl⟩
    · obtain ⟨w, hw, hreference, hnumber⟩ := exists_castTo hcat h hsame hv hpresent
      exact ⟨w, by rw [convert, if_neg hnull, if_neg hsame, hw], hreference, habsent, hnumber⟩

end Catalog

/-! ### Promotions -/

theorem Value.rational?_integral {cat : Catalog} {t : Ty} {v : Value} (ht : t.isIntegral) (hv : cat.conforms v t) :
    v.rational? = v.integer?.map Rat.ofInt := by
  obtain ⟨k, hk⟩ := Ty.isIntegral_iff.mp ht
  rcases (Catalog.conforms_integral hk).mp hv with ⟨rfl, -⟩ | ⟨n, rfl⟩ <;> rfl

/-- A literal of an integer is present and is read again as the same number. -/
theorem Expr.Faithful.rational?_reread {cat : Catalog} {ty t : Ty} {v w : Value} {text : String}
    (h : (Expr.literal ty v text).Faithful) (hty : ty.isIntegral) (ht : t.isIntegral ∨ t.underlying = .decimal)
    (hread : Literal.reread? (.literal ty v text) t = some w) (hv : cat.conforms v ty) :
    w.rational? = v.rational? ∧ v ≠ .null := by
  obtain ⟨k, n, heq, hdigits⟩ := Grammar.integerLiteral?_eq_some (h _ _ _ rfl hty)
  cases heq
  refine ⟨?_, nofun⟩
  rcases ht with ht | ht
  · obtain ⟨j, hj⟩ := Ty.isIntegral_iff.mp ht
    obtain ⟨w', hw', hconforms, hinteger⟩ := h.reread hty hj hread [] [] _ rfl hv
    cases hw'
    rw [Value.rational?_integral ht hconforms, hinteger]
    rfl
  · obtain ⟨d, hd, hscale, hmantissa⟩ := Decimal.readAny?_of_int? hdigits n.natAbs_lt_limit
    have hw : Literal.number? text .decimal = some w := by
      simp only [Literal.reread?, ht] at hread
      split at hread <;> simp_all
    rw [Literal.number?, hd] at hw
    cases hw
    exact Value.rational?_decimal hmantissa hscale

/-- Only literals are read again, and only as values of value types. -/
theorem Literal.reread?_eq_some {e : Expr} {t : Ty} {w : Value} (h : reread? e t = some w) :
    t.isValueType ∧ ∃ ty v text, e = .literal ty v text := by
  unfold reread? at h
  split at h
  · cases h
  · refine ⟨?_, _, _, _, rfl⟩
    simp only at h
    cases t <;> try rfl
    all_goals
      split at h <;> simp_all [number?, member?, Ty.underlying]
  · cases h

/-- Where an expression has a value of its type, the promoted expression has one of the type it was promoted to. An
integer stays the same number, and what is promoted to a reference type stays the same value. -/
theorem Promotes.exists_value {cat : Catalog} (hcat : Catalog.Layered cat.decls) {e e' : Expr} {t : Ty}
    {exact : Bool} (hliteral : e.Faithful) (ht : t.isWellFormed) (h : Promotes cat e t exact e') {s after : Slots}
    {v : Value} (hrun : Eval.exec (cat.eval e) s = (.ok v, after)) (hv : cat.conforms v e.ty) :
    ∃ w, Eval.exec (cat.eval e') s = (.ok w, after) ∧ cat.conforms w t ∧
      (e.ty.isIntegral → t.isIntegral ∨ t.underlying = .decimal →
        w.rational? = v.rational? ∧ (v = .null → w = .null)) ∧
      (t.isValueType = false → e.isNullLiteral = false → w = v) := by
  cases h with
  | same h => exact ⟨v, hrun, h ▸ hv, fun _ _ => ⟨rfl, id⟩, fun _ _ => rfl⟩
  | null hnull hadmits =>
      have hliteral' : ∃ ty text, e = .literal ty .null text := by
        unfold Expr.isNullLiteral at hnull
        split at hnull
        · exact ⟨_, _, rfl⟩
        · cases hnull
      obtain ⟨ty, text, rfl⟩ := hliteral'
      cases hrun
      exact ⟨.null, rfl, Catalog.conforms_null.trans hadmits, fun _ _ => ⟨rfl, id⟩, fun _ h => by cases h⟩
  | @reread w hread =>
      obtain ⟨hvalue, ty, v, text, rfl⟩ := Literal.reread?_eq_some hread
      cases hrun
      refine ⟨w, rfl, conforms_reread hread, fun hintegral hnumber => ?_, fun hreference => ?_⟩
      · obtain ⟨hrational, hpresent⟩ := hliteral.rational?_reread hintegral hnumber hread hv
        exact ⟨hrational, fun hnull => absurd hnull hpresent⟩
      · rw [hvalue] at hreference
        cases hreference
  | convert hne hcompatible _ =>
      obtain ⟨w, hconvert, hreference, hnull, hrational⟩ :=
        Catalog.exists_convert hcat ((Catalog.isCompatible_iff ht).mp hcompatible) hv
      have hconforms := Catalog.yields_convert hv (castable_of_isCompatible hne hcompatible) false
      rw [hconvert] at hconforms
      refine ⟨w, ?_, hconforms, fun hintegral hnumber => ⟨hrational hintegral hnumber, hnull⟩,
        fun hreference' _ => hreference hreference'⟩
      rw [Eval.exec_convert t false hrun, hconvert]
  | reference hassignable hreference _ =>
      refine ⟨v, hrun, Catalog.conforms_of_isAssignable hcat hassignable hv, fun _ hnumber => ?_, fun _ _ => rfl⟩
      rw [Ty.isIntegral_iff] at hnumber
      cases t <;> simp_all [Ty.isValueType, Ty.underlying]

/-- The type of a promoted expression may stand for the type that was asked for. -/
theorem Promotes.isCompatible {cat : Catalog} {e e' : Expr} {t : Ty} {exact : Bool}
    (h : Promotes cat e t exact e') : cat.isCompatible e'.ty t := by
  have hself : cat.isCompatible t t := if_pos rfl
  cases h with
  | same hty => rwa [hty]
  | null => exact hself
  | reread => exact hself
  | convert => exact hself
  | reference hassignable hreference _ =>
      rw [Catalog.isCompatible]
      split
      · rfl
      · simpa [hreference] using hassignable

/-- A promoted expression has the type that was asked for, or one that may stand for it. Where the expression has a
value of its type, the promoted one has a value too, of the type asked for: the same number if an integer is promoted
to an integral type or to decimals, and the same value if anything but the literal for the absent value is promoted to
a reference type. -/
theorem Catalog.promote?_lossless {cat : Catalog} (hcat : Layered cat.decls) {e e' : Expr} {t : Ty} {exact : Bool}
    (hliteral : e.Faithful) (ht : t.isWellFormed) (h : cat.promote? e t exact = some e') :
    (exact ∨ t.isValueType → e'.ty = t) ∧ cat.isCompatible e'.ty t ∧
    ∀ (s after : Slots) (v : Value), Eval.exec (cat.eval e) s = (.ok v, after) → cat.conforms v e.ty →
      ∃ w, Eval.exec (cat.eval e') s = (.ok w, after) ∧ cat.conforms w t ∧
        (e.ty.isIntegral → t.isIntegral ∨ t.underlying = .decimal →
          w.rational? = v.rational? ∧ (v = .null → w = .null)) ∧
        (t.isValueType = false → e.isNullLiteral = false → w = v) := by
  have hpromotes := Promotes.of_promote? h
  refine ⟨fun hform => hpromotes.ty_eq hform.symm, hpromotes.isCompatible, ?_⟩
  intro s after v hrun hv
  exact hpromotes.exists_value hcat hliteral ht hrun hv

/-- A negative literal as a decimal that may be absent. -/
theorem Catalog.promote?_lossless_negative :
    let v : Value := .int .int32 ⟨-7, by decide⟩
    let e : Expr := .literal .int32 v "-7"
    let t : Ty := .nullable .decimal
    Layered figures.decls ∧ e.Faithful ∧ t.isWellFormed ∧
      ∃ e', figures.promote? e t true = some e' ∧ e'.ty = t ∧
        ∃ w, Eval.exec (figures.eval e') [] = (.ok w, []) ∧ figures.conforms w t ∧ w.rational? = v.rational? := by
  intro v e t
  have hcat : Layered figures.decls := figures_layered
  have hliteral : e.Faithful := by
    intro ty value text heq _
    obtain ⟨-, -, rfl⟩ := Expr.literal.inj heq
    rfl
  have hsome : (figures.promote? e t true).isSome := by decide +kernel
  obtain ⟨e', he'⟩ := Option.isSome_iff_exists.mp hsome
  obtain ⟨hty, -, hvalue⟩ := promote?_lossless hcat hliteral rfl he'
  obtain ⟨w, hw, hconforms, hnumber, -⟩ := hvalue [] [] v rfl (by decide +kernel)
  exact ⟨hcat, hliteral, rfl, e', he', hty (Or.inl rfl), w, hw, hconforms, (hnumber rfl (Or.inr rfl)).1⟩

end RowQuery
