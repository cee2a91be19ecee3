import RowQuery.Proofs.Embedding

/-!
Integers under conversion. A literal of an integral type is written in its text, so that reading it again as
another integral type keeps its number, and a conversion that is put in for an operand goes to a type that
holds the whole range of the operand. Where an overload takes two operands of one type, integers never end up
as binary or decimal fractions: among the types of those there is always another one that is no worse.
-/

namespace RowQuery

/-! ### Integers as values -/

/-- The integer that a value is. -/
def Value.integer? : Value → Option Int
  | .int _ n => some n.val
  | _ => none

theorem Word.val_wrap {k : IntKind} {n : Int} (h : k.Holds n) : (Word.wrap k n).val = n := by
  have hupper : n ≤ k.least + k.modulus - 1 := h.2
  have hmod : (n - k.least) % k.modulus = n - k.least :=
    Int.emod_eq_of_lt (Int.sub_nonneg_of_le h.1) (by omega)
  show k.least + (n - k.least) % k.modulus = n
  omega

/-- Wrapping around keeps the residue. -/
theorem Word.wrap_emod (k : IntKind) (n : Int) : (Word.wrap k n).val % k.modulus = n % k.modulus := by
  show (k.least + (n - k.least) % k.modulus) % k.modulus = n % k.modulus
  rw [Int.add_emod_emod]
  congr 1
  omega

theorem IntKind.Holds.within {k j : IntKind} {n : Int} (h : k.Holds n) (hwithin : k.within j) : j.Holds n := by
  obtain ⟨hleast, hgreatest⟩ := IntKind.within_iff.mp hwithin
  exact ⟨Int.le_trans hleast h.1, Int.le_trans h.2 hgreatest⟩

theorem Ty.isIntegral_iff {t : Ty} : t.isIntegral ↔ ∃ k, t.underlying = .int k := by
  unfold Ty.isIntegral Ty.isSigned Ty.isUnsigned Ty.numericKind?
  cases t.underlying with
  | int k => cases hsigned : k.signed <;> simp [hsigned]
  | _ => simp

/-- An integral type is an integer type or the nullable form of one. -/
theorem Ty.eq_of_underlying {t : Ty} {k : IntKind} (h : t.underlying = .int k) :
    t = .int k ∨ t = .nullable (.int k) := by
  cases t <;> simp_all [Ty.underlying]

namespace Catalog

variable {cat : Catalog} {v : Value} {t : Ty} {k : IntKind}

theorem conforms_integral (ht : t.underlying = .int k) :
    cat.conforms v t ↔ v = .null ∧ t.isNullable ∨ ∃ n, v = .int k n := by
  rcases Ty.eq_of_underlying ht with rfl | rfl
  · rw [conforms_int]
    simp [Ty.isNullable]
  · constructor
    · intro h
      rcases conforms_nullable h with rfl | h
      · exact Or.inl ⟨rfl, rfl⟩
      · exact Or.inr (conforms_int.mp h)
    · rintro (⟨rfl, -⟩ | hint)
      · rfl
      · exact conforms_toNullable (conforms_int.mpr hint) rfl

end Catalog

theorem Word.wrap_val {k : IntKind} (w : Word k) : Word.wrap k w.val = w := by
  have heq : ∀ {a b : Word k}, a.val = b.val → a = b := by
    rintro ⟨m, _⟩ ⟨n, _⟩ ⟨⟩
    rfl
  exact heq (Word.val_wrap w.holds)

/-- An expression may stand for another: where that one has a value of its type, it has one of its own type
that is the same integer, or is none either. -/
def Catalog.Keeps (cat : Catalog) (e e' : Expr) : Prop :=
  ∀ (s after : Slots) (v : Value), Eval.exec (cat.eval e) s = (.ok v, after) → cat.conforms v e.ty →
    ∃ v', Eval.exec (cat.eval e') s = (.ok v', after) ∧ cat.conforms v' e'.ty ∧ v'.integer? = v.integer?

namespace Catalog.Keeps

variable {cat : Catalog} {e e' e'' : Expr}

theorem refl (e : Expr) : cat.Keeps e e := fun _ _ _ hrun hv => ⟨_, hrun, hv, rfl⟩

theorem trans (h : cat.Keeps e e') (h' : cat.Keeps e' e'') : cat.Keeps e e'' := by
  intro s after v hrun hv
  obtain ⟨v', hrun', hv', hinteger⟩ := h s after v hrun hv
  obtain ⟨v'', hrun'', hv'', hinteger'⟩ := h' s after v' hrun' hv'
  exact ⟨v'', hrun'', hv'', hinteger'.trans hinteger⟩

end Catalog.Keeps

/-! ### Literals -/

/-- If an expression is a literal of an integral type, it is the one that its text is read as. -/
def Expr.Faithful (e : Expr) : Prop :=
  ∀ ty v text, e = .literal ty v text → ty.isIntegral → Grammar.integerLiteral? text = some e

theorem Word.read?_eq_some {k : IntKind} {text : String} {w : Word k} (h : Word.read? k text = some w) :
    Digits.int? text.toList = some w.val := by
  unfold Word.read? at h
  split at h
  · cases h
  · obtain ⟨n, hn, hw⟩ := Option.bind_eq_some_iff.mp h
    rwa [Word.ofInt?_eq_some hw]

namespace Expr.Faithful

variable {cat : Catalog} {e : Expr} {t : Ty} {j : IntKind} {v : Value}

/-- An integer literal that is read again as an integer keeps its number. -/
theorem reread (h : e.Faithful) (hty : e.ty.isIntegral) (ht : t.underlying = .int j)
    (hread : Literal.reread? e t = some v) : cat.Keeps e (.constant t v) := by
  unfold Literal.reread? at hread
  split at hread
  · cases hread
  · rename_i ty value text _
    obtain ⟨k, w, heq, hdigits⟩ := Grammar.integerLiteral?_eq_some (h _ _ _ rfl hty)
    cases heq
    have hnumber : Literal.number? text (.int j) = some v := by
      simp only [ht] at hread
      split at hread <;> simp_all
    obtain ⟨w', hw', rfl⟩ := Option.map_eq_some_iff.mp hnumber
    intro s after value hrun _
    cases hrun
    refine ⟨_, rfl, (Catalog.conforms_integral ht).mpr (Or.inr ⟨w', rfl⟩), ?_⟩
    exact (Word.read?_eq_some hw').symm.trans hdigits
  · cases hread

theorem not_null (h : e.Faithful) (hty : e.ty.isIntegral) : e.isNullLiteral = false := by
  cases e with
  | literal ty value text =>
      obtain ⟨k, w, heq, -⟩ := Grammar.integerLiteral?_eq_some (h _ _ _ rfl hty)
      cases heq
      rfl
  | _ => rfl

theorem of_ne (h : ∀ ty v text, e ≠ .literal ty v text) : e.Faithful :=
  fun ty v text heq => absurd heq (h ty v text)

theorem mapSlots (h : e.Faithful) (f : Nat → Nat) : (e.mapSlots f).Faithful := by
  intro ty v text heq hty
  cases e with
  | literal ty' v' text' =>
      cases heq
      exact h _ _ _ rfl hty
  | _ => cases heq

theorem of_leaf {scope : Scope} (h : Leaf scope e) (hit : ∀ e, scope.it = some e → e.Faithful)
    (hsymbols : ∀ name e, scope.symbols.lookup name = some (.expr e) → e.Faithful) : e.Faithful := by
  cases h with
  | quoted h =>
      unfold Grammar.quotedLiteral? at h
      split at h
      · cases h
      · simp only at h
        split at h
        · split at h <;> cases h
          rintro _ _ _ ⟨⟩ ⟨⟩
        · cases h
          rintro _ _ _ ⟨⟩ ⟨⟩
  | integer h =>
      obtain ⟨k, w, rfl, -⟩ := Grammar.integerLiteral?_eq_some h
      rintro _ _ _ ⟨⟩ _
      exact h
  | real h =>
      unfold Grammar.realLiteral? at h
      split at h <;>
      · obtain ⟨x, -, rfl⟩ := Option.map_eq_some_iff.mp h
        rintro _ _ _ ⟨⟩ ⟨⟩
  | truth b => exact of_ne fun _ _ _ => nofun
  | null =>
      rintro _ _ _ ⟨⟩ hty
      cases hty
  | implicit h => exact hit _ h
  | symbol h => exact hsymbols _ _ h

end Expr.Faithful

/-- No rule makes a literal; a conversion of one to its own type is the literal. -/
theorem Rule.mem_of_literal {scope : Scope} {es : List Expr} {e : Expr} (h : Rule scope es e) {t : Ty} {v : Value}
    {text : String} (he : e = .literal t v text) : e ∈ es := by
  have harithmetic : ∀ {signatures op symbol l r},
      Typing.arithmetic scope.catalog signatures op symbol l r ≠ .ok e := by
    intro signatures op symbol l r h
    obtain ⟨_, _, -, rfl⟩ := Typing.arithmetic_ok h
    cases he
  cases h with
  | logical _ h =>
      obtain ⟨_, _, -, rfl⟩ := Typing.logical_ok h
      cases he
  | comparison _ h =>
      obtain ⟨_, _, -, rfl | ⟨-, rfl⟩⟩ := Typing.comparison_ok h <;> cases he
  | product _ h => exact absurd h harithmetic
  | difference h => exact absurd h harithmetic
  | sum h =>
      rcases Typing.sum_ok h with rfl | h
      · cases he
      · exact absurd h harithmetic
  | concatenation => cases he
  | unary h =>
      obtain ⟨_, _, -, -, rfl⟩ := Typing.unary_ok h
      cases he
  | conditional h =>
      obtain ⟨-, _, _, -, rfl⟩ := Typing.conditional_ok h
      cases he
  | construction _ h =>
      rcases Typing.construction_ok h with ⟨_, -, _, -, rfl⟩ | ⟨operand, rfl, hconversion⟩
      · cases he
      · rcases Typing.conversion_ok hconversion with rfl | ⟨_, rfl⟩
        · exact List.mem_singleton_self _
        · cases he
  | property h =>
      obtain ⟨_, -, rfl⟩ := Typing.property_ok h
      cases he
  | methodCall h =>
      obtain ⟨_, -, _, -, _, -, rfl⟩ := Typing.methodCall_ok h
      cases he
  | element h =>
      rcases Typing.element_ok h with ⟨_, _, _, -, -, -, rfl⟩ | ⟨_, -, _, -, _, -, rfl⟩ <;> cases he
  | invocation _ h =>
      obtain ⟨_, -, rfl⟩ := Typing.invocation_ok h
      cases he
  | projection => cases he

/-- Literals of integers in what is derived are written in their texts. -/
theorem Derives.faithful {scope : Scope} {a b : Nat} {es : List Expr} (h : Derives scope a b es)
    (hit : ∀ e, scope.it = some e → e.Faithful)
    (hsymbols : ∀ name e, scope.symbols.lookup name = some (.expr e) → e.Faithful) : ∀ e ∈ es, e.Faithful := by
  induction h with
  | nil => exact fun _ he => nomatch he
  | cons _ _ ih₁ ih₂ =>
      intro e he
      rcases List.mem_cons.mp he with rfl | he
      · exact ih₁ hit hsymbols _ (List.mem_singleton_self _)
      · exact ih₂ hit hsymbols e he
  | leaf h => exact List.forall_mem_singleton.mpr (.of_leaf h hit hsymbols)
  | rule _ h ih =>
      refine List.forall_mem_singleton.mpr fun ty v text heq => ?_
      exact ih hit hsymbols _ (h.mem_of_literal heq) ty v text heq
  | aggregate _ _ _ h _ _ =>
      refine List.forall_mem_singleton.mpr (.of_ne ?_)
      rintro ty v text rfl
      obtain ⟨_, _, _, _, -, -, -, heq⟩ := Typing.aggregate_ok h
      cases heq

/-- Literals of integers in a compiled expression are written in their texts. -/
theorem Environment.Compiles.faithful {env : Environment} {decls : List ParamDecl} {text : String}
    {args : List Argument} {l : Lambda} (h : env.Compiles decls none text args l) : l.body.Faithful := by
  obtain ⟨hparams, symbols, body, hsymbols, hderives, hresult⟩ := h.derives
  cases hresult
  have hslots : l.params.map (·.slot) = List.range l.params.length := by
    rw [hparams]
    exact bindParams_slots decls
  have hsees : (env.scope l.params symbols).Sees (· < l.params.length) := scope_sees hslots hsymbols
  refine hderives.faithful ?_ ?_ _ (List.mem_singleton_self _)
  · intro e he
    obtain ⟨_, _, rfl, -⟩ := hsees.implicit e he
    exact .of_ne fun _ _ _ => nofun
  · intro name e he
    rcases hsees.symbols name e he with ⟨_, _, rfl, -⟩ | ⟨_, _, rfl⟩ <;> exact .of_ne fun _ _ _ => nofun

/-! ### Conversions -/

/-- What is compatible with an integral type has its range within that type, and is absent only where that
type admits it. -/
theorem Catalog.within_of_isCompatible {cat : Catalog} {s t : Ty} {j k : IntKind} (hs : s.underlying = .int k)
    (ht : t.underlying = .int j) (h : cat.isCompatible s t) : k.within j ∧ (s.isNullable → t.isNullable) := by
  have hself := IntKind.within_refl
  rcases Ty.eq_of_underlying hs with rfl | rfl <;> rcases Ty.eq_of_underlying ht with rfl | rfl <;>
    simp only [isCompatible] at h <;> split at h <;>
    simp_all [Ty.isValueType, Ty.isNullable, Ty.underlying, Ty.widens]

/-- A conversion to an integral type that holds the range of the operand keeps the number. -/
theorem Catalog.keeps_convert {cat : Catalog} {e : Expr} {t : Ty} {j k : IntKind} (he : e.ty.underlying = .int k)
    (ht : t.underlying = .int j) (hcompatible : cat.isCompatible e.ty t) :
    cat.Keeps e (.convert t false e) := by
  intro s after v hrun hv
  obtain ⟨hwithin, hnullable⟩ := within_of_isCompatible he ht hcompatible
  have hconvert : ∃ v', cat.convert v e.ty t false = .ok v' ∧ cat.conforms v' t ∧ v'.integer? = v.integer? := by
    rcases (conforms_integral he).mp hv with ⟨rfl, hnull⟩ | ⟨n, rfl⟩
    · have hadmits : t.admitsNull := by simp [Ty.admitsNull, hnullable hnull]
      exact ⟨.null, by simp [convert, Value.isNull, hadmits], by rw [conforms_null, hadmits], rfl⟩
    · refine ⟨.int j (.wrap j n.val), ?_, (conforms_integral ht).mpr (Or.inr ⟨_, rfl⟩), ?_⟩
      · by_cases hsame : k = j
        · subst hsame
          simp [convert, Value.isNull, he, ht, Word.wrap_val]
        · simp [convert, Value.isNull, he, ht, hsame, castTo, Number.ofValue?, Number.convert, Number.convertInt]
      · simp [Value.integer?, Word.val_wrap (n.holds.within hwithin)]
  obtain ⟨v', hvalue, hconforms, hinteger⟩ := hconvert
  refine ⟨v', ?_, hconforms, hinteger⟩
  rw [Eval.exec_convert t false hrun, hvalue]

/-- A promotion to an integral type keeps the number. -/
theorem Promotes.keeps {cat : Catalog} {e e' : Expr} {t : Ty} (h : Promotes cat e t false e')
    (hfaithful : e.Faithful) (he : e.ty.isIntegral) (ht : t.isIntegral) : cat.Keeps e e' := by
  obtain ⟨k, hk⟩ := Ty.isIntegral_iff.mp he
  obtain ⟨j, hj⟩ := Ty.isIntegral_iff.mp ht
  cases h with
  | same _ => exact .refl e
  | null hnull _ =>
      rw [hfaithful.not_null he] at hnull
      cases hnull
  | reread hread => exact hfaithful.reread he hj hread
  | convert _ hcompatible _ => exact Catalog.keeps_convert hk hj hcompatible
  | reference _ hform _ => rcases Ty.eq_of_underlying hj with rfl | rfl <;> cases hform

/-! ### The choice of an overload -/

namespace Typing

variable {cat : Catalog} {left right : Expr}

/-- The types of numbers that are no integers, and their nullable forms. -/
def fractionalTypes : List Ty := Signatures.withNullable [.single, .double, .decimal]

theorem mem_fractionalTypes {t : Ty} (h : t.underlying ∈ [Ty.single, .double, .decimal]) :
    t ∈ fractionalTypes := by
  have hform : t = t.underlying ∨ t = .nullable t.underlying := by cases t <;> simp [Ty.underlying]
  exact Signatures.mem_withNullable.mpr ⟨t.underlying, h, hform⟩

/-- What integers are promoted to is a type of numbers, and admits that they are absent if they may be. -/
theorem numeric_of_promotes {e e' : Expr} {t : Ty} (h : Promotes cat e t false e') (hfaithful : e.Faithful)
    (he : e.ty.isIntegral) (ht : t ≠ .object) :
    (t.isIntegral ∨ t ∈ fractionalTypes) ∧ (e.ty.isNullable → t.isNullable) := by
  obtain ⟨k, hk⟩ := Ty.isIntegral_iff.mp he
  have hnumeric : (∃ j, t.underlying = .int j) ∨ t.underlying ∈ [Ty.single, .double, .decimal] →
      t.isIntegral ∨ t ∈ fractionalTypes := Or.imp Ty.isIntegral_iff.mpr mem_fractionalTypes
  cases h with
  | same h => exact ⟨Or.inl (h ▸ he), fun hnull => h ▸ hnull⟩
  | null hnull _ =>
      rw [hfaithful.not_null he] at hnull
      cases hnull
  | reread hread =>
      cases e with
      | literal ty value text =>
          obtain ⟨j, w, heq, -⟩ := Grammar.integerLiteral?_eq_some (hfaithful _ _ _ rfl he)
          cases heq
          refine ⟨hnumeric ?_, fun hnull => by cases hnull⟩
          have hnumber : (Literal.number? text t.underlying).isSome := by
            cases j <;> simp_all [Literal.reread?]
          cases hunder : t.underlying <;> simp_all [Literal.number?]
      | _ => cases hread
  | convert hne hcompatible hvalue =>
      rw [Bool.or_false] at hvalue
      simp only [Catalog.isCompatible, if_neg hne, hvalue, Bool.not_true, Bool.false_eq_true, if_false, hk]
        at hcompatible
      split at hcompatible
      · cases hcompatible
      · rename_i hnull
        refine ⟨hnumeric ?_, by simpa using hnull⟩
        cases hunder : t.underlying <;> simp_all [Ty.widens]
  | reference hassignable hvalue _ =>
      exfalso
      rcases Ty.eq_of_underlying hk with hty | hty <;> rw [hty] at hassignable <;>
        cases t <;> simp_all [Catalog.isAssignable, Ty.isValueType]

/-- Another type of numbers that is no worse for integers. -/
def rival : Ty → Ty
  | .single => .decimal
  | .nullable .single => .nullable .decimal
  | .nullable _ => .nullable .single
  | _ => .single

theorem rival_ne {t : Ty} (ht : t ∈ fractionalTypes) : rival t ≠ t := by
  revert t
  decide

theorem rival_mem {t : Ty} (ht : t ∈ fractionalTypes) : rival t ∈ fractionalTypes := by
  revert t
  decide

/-- For no integers is a fractional type better than its rival. -/
theorem compareConversions_rival (cat : Catalog) {s t : Ty} (hs : s.isIntegral) (ht : t ∈ fractionalTypes) :
    cat.compareConversions s t (rival t) ≠ .gt := by
  have hne : ∀ u ∈ fractionalTypes, s ≠ u := by
    rintro u hu rfl
    revert hs
    revert s
    decide
  have hst := hne t ht
  have hsr := hne (rival t) (rival_mem ht)
  obtain ⟨u, hu, rfl | rfl⟩ := Signatures.mem_withNullable.mp ht <;>
    simp only [List.mem_cons, List.not_mem_nil, or_false] at hu <;> rcases hu with rfl | rfl | rfl <;>
    simp_all [rival, Catalog.compareConversions, Catalog.isCompatible, Ty.isValueType, Ty.isNullable, Ty.underlying,
      Ty.widens, Ty.isSigned, Ty.isUnsigned, Ty.numericKind?]
  all_goals decide

/-- Integers can be used as numbers of any type that admits their absence if they may be absent. -/
theorem isCompatible_rival (cat : Catalog) {s t : Ty} (hs : s.isIntegral) (ht : t ∈ fractionalTypes)
    (hnull : s.isNullable → t.isNullable) : cat.isCompatible s (rival t) := by
  obtain ⟨k, hk⟩ := Ty.isIntegral_iff.mp hs
  obtain ⟨u, hu, rfl | rfl⟩ := Signatures.mem_withNullable.mp ht <;>
    simp only [List.mem_cons, List.not_mem_nil, or_false] at hu <;> rcases hu with rfl | rfl | rfl <;>
    rcases Ty.eq_of_underlying hk with rfl | rfl <;>
    simp_all [rival, Catalog.isCompatible, Ty.isValueType, Ty.isNullable, Ty.underlying, Ty.widens]

/-- The overloads of an operator on numbers: one for each type of numbers, and none for a number and another type. -/
structure OnNumbers (signatures : List (List Ty)) : Prop where
  arithmetic : Signatures.arithmetic ⊆ signatures
  same : ∀ {t u : Ty}, [t, u] ∈ signatures → t ≠ .object ∧ (t.isIntegral ∨ t ∈ fractionalTypes → t = u)

theorem OnNumbers.of_binary {types : List Ty} (harithmetic : Signatures.arithmeticTypes ⊆ types)
    (hobject : .object ∉ types) : OnNumbers (Signatures.binary types) where
  arithmetic := List.map_subset _ harithmetic
  same h := by
    obtain ⟨rfl, hmem⟩ := Signatures.mem_binary.mp h
    exact ⟨fun heq => hobject (heq ▸ hmem), fun _ => rfl⟩

section

variable {signatures : List (List Ty)} (hnumbers : OnNumbers signatures) (hleft : left.Faithful)
  (hright : right.Faithful) (htyleft : left.ty.isIntegral) (htyright : right.ty.isIntegral)

include hnumbers hleft hright htyleft htyright

/-- The overload that is chosen for integers is one of integers. -/
theorem isIntegral_of_found {choice : Applicable}
    (h : Overload.resolve cat signatures [left, right] = .found choice) :
    ∃ t l r, t.isIntegral ∧ [t, t] ∈ signatures ∧ choice.args = [l, r] ∧ Promotes cat left t false l ∧
      Promotes cat right t false r := by
  obtain ⟨hindex, hpromotes⟩ := Overload.resolve_found h
  obtain ⟨index, params, args⟩ := choice
  cases hpromotes with
  | @cons _ l t _ _ _ hl hrest =>
      cases hrest with
      | @cons _ r u _ _ _ hr hnil =>
          cases hnil
          have hmem := List.mem_of_getElem? hindex
          obtain ⟨hne, hsame⟩ := hnumbers.same hmem
          obtain ⟨hform, hnullleft⟩ := numeric_of_promotes hl hleft htyleft hne
          obtain rfl := hsame hform
          obtain ⟨-, hnullright⟩ := numeric_of_promotes hr hright htyright hne
          refine ⟨t, l, r, hform.resolve_right fun hfractional => ?_, hmem, rfl, hl, hr⟩
          -- The rival can be applied too, and would have to be worse for one operand.
          have hsub : fractionalTypes ⊆ Signatures.arithmeticTypes := by decide
          have hrival := hsub (rival_mem hfractional)
          obtain ⟨l', hl'⟩ := Option.isSome_iff_exists.mp
            (cat.promote?_isSome (isCompatible_rival cat htyleft hfractional hnullleft) false)
          obtain ⟨r', hr'⟩ := Option.isSome_iff_exists.mp
            (cat.promote?_isSome (isCompatible_rival cat htyright hfractional hnullright) false)
          have hpromoted : Overload.promoteAll? cat [left, right] [rival t, rival t] = some [l', r'] := by
            simp [Overload.promoteAll?, hl', hr']
          have hbetter := Overload.isBetter_of_found h (hnumbers.arithmetic (Signatures.mem_binary.mpr ⟨rfl, hrival⟩))
            hpromoted (by simp [rival_ne hfractional])
          have hno := compareConversions_rival cat htyleft hfractional
          have hno' := compareConversions_rival cat htyright hfractional
          simp [Overload.isBetter, Overload.comparisons, hno.symm, hno'.symm] at hbetter

/-- Integers that are operands are converted to integers of one type, and keep their numbers. -/
theorem operands_integral {symbol : String} {l r : Expr}
    (h : operands cat signatures symbol left right = .ok (l, r)) :
    ∃ t, t.isIntegral ∧ [t, t] ∈ signatures ∧ (cat.Keeps left l ∧ l.ty = t) ∧ cat.Keeps right r ∧ r.ty = t := by
  unfold operands at h
  split at h
  · rename_i index params l' r' hresolve
    cases h
    obtain ⟨t, l', r', ht, hmem, hargs, hl, hr⟩ :=
      isIntegral_of_found hnumbers hleft hright htyleft htyright hresolve
    cases hargs
    have hform : t.isValueType := by
      obtain ⟨k, hk⟩ := Ty.isIntegral_iff.mp ht
      rcases Ty.eq_of_underlying hk with rfl | rfl <;> rfl
    exact ⟨t, ht, hmem, ⟨hl.keeps hleft htyleft ht, hl.ty_eq (Or.inl hform)⟩, hr.keeps hright htyright ht,
      hr.ty_eq (Or.inl hform)⟩
  · cases h

end

end Typing

end RowQuery
