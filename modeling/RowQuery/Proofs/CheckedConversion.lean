import Mathlib.Data.Rat.Floor
import RowQuery.Proofs.Boxing

/-!
Conversions to the types whose values are counted: the integral types, characters and enumerations. A value that is
converted denotes an integer, a decimal the one toward zero. A checked conversion gives the value of the target type
that denotes the same integer, or overflows where there is none. An unchecked one to an integral type keeps the low
bits, so that the two agree on the integers that the target type has; decimals are checked in any case.
-/

namespace RowQuery

variable {cat : Catalog} {v w : Value} {source target : Ty} {n : Int} {checked : Bool}

/-! ### The integer that a value denotes -/

/-- The integer next to a number on the side of zero. -/
def towardZero (q : Rat) : Int := if 0 ≤ q then ⌊q⌋ else ⌈q⌉

/-- The integer that a value denotes: a character its number, and a decimal the integer toward zero. -/
def Value.denoted? : Value → Option Int
  | .int _ n => some n.val
  | .char c => some c.toNat
  | .enum _ n => some n.val
  | .decimal d => some (towardZero (mkRat d.signedMantissa (10 ^ d.scale)))
  | _ => none

/-- Whether the values of a type are counted: integers, characters and members of enumerations. -/
def Ty.isOrdinal (t : Ty) : Bool :=
  match t.underlying with
  | .int _ | .char | .enum _ => true
  | _ => false

/-- The integers that some value of an ordinal type denotes: the numbers of the scalar values of Unicode for characters,
and all signed numbers of 64 bits for enumerations. -/
def Ty.Represents (t : Ty) (n : Int) : Prop :=
  match t.underlying with
  | .int k => k.Holds n
  | .char => 0 ≤ n ∧ n < 0xD800 ∨ 0xDFFF < n ∧ n < 0x110000
  | .enum _ => -(2 ^ 63) ≤ n ∧ n < 2 ^ 63
  | _ => False

/-- Whether a value is a decimal. -/
def Value.isDecimal : Value → Bool
  | .decimal _ => true
  | _ => false

theorem Decimal.truncateInt_eq (d : Decimal) :
    d.truncateInt = towardZero (mkRat d.signedMantissa (10 ^ d.scale)) := by
  obtain ⟨negative, m, scale, -, -⟩ := d
  have hp : 0 < (10 : Nat) ^ scale := Nat.pow_pos (by omega)
  generalize hden : (10 : Nat) ^ scale = p at hp
  simp only [truncateInt, signedMantissa, hden, towardZero, Rat.mkRat_eq_div]
  cases negative with
  | false =>
      have hsign : (0 : Rat) ≤ ((m : Int) : Rat) / (p : Nat) := by positivity
      simp only [Bool.false_eq_true, if_false]
      rw [if_pos hsign, Rat.floor_intCast_div_natCast, Int.natCast_div]
  | true =>
      simp only [if_true]
      rcases Nat.eq_zero_or_pos m with rfl | hm
      · simp
      · have hsign : ¬(0 : Rat) ≤ ((-(m : Int) : Int) : Rat) / (p : Nat) := by
          rw [not_le, div_lt_iff₀ (by exact_mod_cast hp)]
          simpa using hm
        rw [if_neg hsign, Rat.ceil_intCast_div_natCast, Int.neg_neg, Int.natCast_div]

theorem Ty.isOrdinal_iff {t : Ty} :
    t.isOrdinal ↔ (∃ k, t.underlying = .int k) ∨ t.underlying = .char ∨ ∃ e, t.underlying = .enum e := by
  unfold Ty.isOrdinal
  cases t.underlying <;> simp

/-! ### The values of ordinal types -/

/-- The value of an ordinal type, itself not nullable, that denotes an integer. -/
inductive Ordinal : Ty → Int → Value → Prop
  | int {k : IntKind} (m : Word k) : Ordinal (.int k) m.val (.int k m)
  | char (c : Char) : Ordinal .char c.toNat (.char c)
  | enum (e : EnumType) (m : Word .int64) : Ordinal (.enum e) m.val (.enum e m)

theorem ordinal_iff (htarget : target.isOrdinal) :
    Ordinal target.underlying n v ↔ cat.conforms v target ∧ v.denoted? = some n := by
  constructor
  · intro h
    generalize ht : target.underlying = t at h
    cases h <;> simp [Catalog.conforms, Value.denoted?, ht]
  · rintro ⟨hv, hn⟩
    obtain ⟨k, ht⟩ | ht | ⟨e, ht⟩ := Ty.isOrdinal_iff.mp htarget <;> rw [ht] <;>
      cases v <;> simp [Catalog.conforms, Value.denoted?, ht] at hv hn
    · subst hv hn
      exact .int _
    · subst hn
      exact .char _
    · subst hv hn
      exact .enum _ _

namespace Ordinal

variable {t : Ty}

/-- An integer is converted to the value that denotes it, checked or not. -/
theorem convertInt (h : Ordinal t n v) (checked : Bool) : Number.convertInt n t checked = .ok v := by
  cases h with
  | int m => cases checked <;> simp [Number.convertInt, Word.ofInt?_val, Word.wrap_val]
  | char c => simp [Number.convertInt, Number.char?_toNat]
  | enum e m => simp [Number.convertInt, Word.ofInt?_val]

theorem unique (h : Ordinal t n v) (h' : Ordinal t n w) : v = w :=
  Except.ok.inj ((h.convertInt true).symm.trans (h'.convertInt true))

theorem isNull (h : Ordinal t n v) : v.isNull = false := by
  cases h <;> rfl

end Ordinal

theorem Ordinal.represents (h : Ordinal target.underlying n v) : target.Represents n := by
  unfold Ty.Represents
  generalize target.underlying = t at h
  cases h with
  | int m => exact m.holds
  | char c =>
      have hvalid : c.toNat.isValidChar := c.valid
      simp only [Nat.isValidChar] at hvalid ⊢
      omega
  | enum e m =>
      have hholds : (-9223372036854775808 : Int) ≤ m.val ∧ m.val ≤ 9223372036854775807 := m.holds
      simp only
      omega

/-- An ordinal type has a value for each of the integers that it represents. -/
theorem Ordinal.of_represents (htarget : target.isOrdinal) (h : target.Represents n) :
    ∃ v, Ordinal target.underlying n v := by
  unfold Ty.Represents at h
  obtain ⟨k, ht⟩ | ht | ⟨e, ht⟩ := Ty.isOrdinal_iff.mp htarget <;> rw [ht] at h ⊢
  · exact ⟨_, .int ⟨n, h⟩⟩
  · simp only at h
    have hvalid : n.toNat.isValidChar := by
      simp only [Nat.isValidChar]
      omega
    have hnumber : (((Char.ofNat n.toNat).toNat : Nat) : Int) = n := by
      rw [Char.ofNat, dif_pos hvalid]
      show ((n.toNat : Nat) : Int) = n
      omega
    have hchar := Ordinal.char (Char.ofNat n.toNat)
    rw [hnumber] at hchar
    exact ⟨_, hchar⟩
  · simp only at h
    have hholds : IntKind.int64.Holds n := by
      show (-9223372036854775808 : Int) ≤ n ∧ n ≤ 9223372036854775807
      omega
    exact ⟨_, .enum e ⟨n, hholds⟩⟩

/-- An integer that a type does not represent is out of its range, unless it is wrapped around. -/
theorem Number.convertInt_eq_error (htarget : target.isOrdinal) (h : ¬target.Represents n)
    (hchecked : checked ∨ target.isIntegral = false) :
    convertInt n target.underlying checked = .error (.overflow (.range (toString n) target.underlying)) := by
  obtain ⟨k, ht⟩ | ht | ⟨e, ht⟩ := Ty.isOrdinal_iff.mp htarget
  · have htrue : checked = true := hchecked.resolve_right (by simp [Ty.isIntegral_iff, ht])
    have hnone : Word.ofInt? k n = none := dif_neg (by simpa [Ty.Represents, ht] using h)
    simp [convertInt, ht, htrue, hnone, outOfRange]
  · have hnone : char? n = none := by
      rw [char?, if_neg]
      simp only [Ty.Represents, ht] at h
      simp only [Nat.isValidChar]
      omega
    simp [convertInt, ht, hnone, outOfRange]
  · have hnone : Word.ofInt? .int64 n = none := by
      refine dif_neg fun hholds => h ?_
      have hlimits : (-9223372036854775808 : Int) ≤ n ∧ n ≤ 9223372036854775807 := hholds
      simp only [Ty.Represents, ht]
      omega
    simp [convertInt, ht, hnone, outOfRange]

/-! ### Conversions -/

namespace Catalog

/-- A conversion to another ordinal type is that of the integer denoted; decimals count as checked. -/
theorem convert_eq_convertInt (hn : v.denoted? = some n) (htarget : target.isOrdinal)
    (hother : source.underlying ≠ target.underlying) (checked : Bool) :
    cat.convert v source target checked = Number.convertInt n target.underlying (checked || v.isDecimal) := by
  have hpresent : v.isNull = false := by
    cases v with
    | null => cases hn
    | _ => rfl
  rw [convert, hpresent, if_neg Bool.false_ne_true, if_neg hother]
  obtain ⟨k, ht⟩ | ht | ⟨e, ht⟩ := Ty.isOrdinal_iff.mp htarget <;> rw [ht] <;>
    cases v <;> cases hn <;>
    simp [castTo, Number.ofValue?, Number.convert, Number.convertDecimal, Value.isDecimal, Decimal.truncateInt_eq]

theorem ordinal_of_underlying (hv : cat.conforms v source) (hn : v.denoted? = some n) (htarget : target.isOrdinal)
    (hsame : source.underlying = target.underlying) : Ordinal target.underlying n v := by
  have hsource : source.isOrdinal := by
    rw [Ty.isOrdinal, hsame]
    exact htarget
  rw [← hsame]
  exact (ordinal_iff hsource).mpr ⟨hv, hn⟩

/-- What denotes an integer that the target type represents is converted to the value that denotes it there. -/
theorem convert_of_ordinal (hv : cat.conforms v source) (hn : v.denoted? = some n) (htarget : target.isOrdinal)
    (hw : Ordinal target.underlying n w) (checked : Bool) : cat.convert v source target checked = .ok w := by
  by_cases hsame : source.underlying = target.underlying
  · have hv' := ordinal_of_underlying hv hn htarget hsame
    rw [convert, hv'.isNull, if_neg Bool.false_ne_true, if_pos hsame, hv'.unique hw]
  · rw [convert_eq_convertInt hn htarget hsame]
    exact hw.convertInt _

/-- A value that denotes an integer is converted to the value of an ordinal type that denotes the same integer, if the
type has one, and overflows otherwise. Unchecked it keeps the low bits, unless it is a decimal. A value of an ordinal
type comes back from each type that represents its integer. -/
theorem convert_ordinal (cat : Catalog) (v : Value) (source target : Ty) (n : Int) (hv : cat.conforms v source)
    (hn : v.denoted? = some n) (htarget : target.isOrdinal) :
    (target.Represents n → ∃ w, cat.convert v source target true = .ok w ∧ cat.conforms w target ∧
      w.denoted? = some n ∧ ∀ w', cat.conforms w' target → w'.denoted? = some n → w' = w) ∧
    (¬target.Represents n →
      cat.convert v source target true = .error (.overflow (.range (toString n) target.underlying))) ∧
    (v.isDecimal = false → ∀ k, target.underlying = .int k →
      ∃ w : Word k, cat.convert v source target false = .ok (.int k w) ∧ w.val % 2 ^ k.bits = n % 2 ^ k.bits) ∧
    (v.isDecimal → cat.convert v source target false = cat.convert v source target true) ∧
    (source.isOrdinal → target.Represents n → ∀ there back, ∃ w,
      cat.convert v source target there = .ok w ∧ cat.convert w target source back = .ok v) := by
  refine ⟨fun hrep => ?_, fun hrep => ?_, fun hinteger k hk => ?_, fun hdecimal => ?_,
    fun hsource hrep there back => ?_⟩
  · obtain ⟨w, hw⟩ := Ordinal.of_represents htarget hrep
    obtain ⟨hconforms, hdenoted⟩ := (ordinal_iff htarget).mp hw
    refine ⟨w, convert_of_ordinal hv hn htarget hw true, hconforms, hdenoted, fun w' hw' hdenoted' => ?_⟩
    exact ((ordinal_iff htarget).mpr ⟨hw', hdenoted'⟩).unique hw
  · have hother : source.underlying ≠ target.underlying :=
      fun hsame => hrep (ordinal_of_underlying hv hn htarget hsame).represents
    rw [convert_eq_convertInt hn htarget hother]
    exact Number.convertInt_eq_error htarget hrep (Or.inl rfl)
  · by_cases hsame : source.underlying = target.underlying
    · have hw := ordinal_of_underlying hv hn htarget hsame
      have heq := convert_of_ordinal hv hn htarget hw false
      rw [hk] at hw
      cases hw with
      | int m => exact ⟨m, heq, rfl⟩
    · rw [convert_eq_convertInt hn htarget hsame, hinteger, hk]
      exact ⟨.wrap k n, rfl, Word.wrap_emod k n⟩
  · by_cases hsame : source.underlying = target.underlying
    · have hw := ordinal_of_underlying hv hn htarget hsame
      rw [convert_of_ordinal hv hn htarget hw, convert_of_ordinal hv hn htarget hw]
    · rw [convert_eq_convertInt hn htarget hsame, convert_eq_convertInt hn htarget hsame, hdecimal, Bool.or_true,
        Bool.or_true]
  · obtain ⟨w, hw⟩ := Ordinal.of_represents htarget hrep
    obtain ⟨hconforms, hdenoted⟩ := (ordinal_iff htarget).mp hw
    refine ⟨w, convert_of_ordinal hv hn htarget hw there, ?_⟩
    exact convert_of_ordinal hconforms hdenoted hsource ((ordinal_iff hsource).mpr ⟨hv, hn⟩) back

/-- A decimal a little below zero is zero as a byte that may be absent. The least signed byte is no character, not even
unboxed, but unchecked it is a large number without a sign. -/
theorem convert_ordinal_negative :
    let d : Decimal := ⟨true, 9, 1, by decide, by decide⟩
    let m : Value := .int .sbyte ⟨-128, by decide⟩
    (∃ w, Catalog.empty.convert (.decimal d) .decimal (.nullable (.int .byte)) true = .ok w ∧ w.denoted? = some 0) ∧
    Catalog.empty.convert m .object .char true = .error (.overflow (.range "-128" .char)) ∧
    ∃ w : Word .uint64, Catalog.empty.convert m (.nullable (.int .sbyte)) (.int .uint64) false = .ok (.int .uint64 w) ∧
      w.val % 2 ^ 64 = 18446744073709551488 := by
  intro d m
  have hzero : (Value.decimal d).denoted? = some 0 := by
    rw [Value.denoted?, ← Decimal.truncateInt_eq]
    decide
  obtain ⟨hexact, -⟩ := convert_ordinal .empty (.decimal d) .decimal (.nullable (.int .byte)) 0 rfl hzero rfl
  obtain ⟨-, hoverflow, -⟩ := convert_ordinal .empty m .object .char (-128) rfl rfl rfl
  obtain ⟨-, -, hwraps, -⟩ := convert_ordinal .empty m (.nullable (.int .sbyte)) (.int .uint64) (-128) rfl rfl rfl
  obtain ⟨w, hw, -, hdenoted, -⟩ := hexact (show IntKind.byte.Holds 0 by decide)
  exact ⟨⟨w, hw, hdenoted⟩, hoverflow (by simp [Ty.Represents, Ty.underlying]), hwraps rfl .uint64 rfl⟩

end Catalog

end RowQuery
