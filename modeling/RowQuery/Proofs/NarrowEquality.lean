import RowQuery.Proofs.ComparisonCoherence
import RowQuery.Proofs.IntegerLiterals

/-!
Equality of a narrow integer and an integer literal. The literal is read again from its text, as a value of the type of
the other operand. It is refused exactly if that type cannot hold its number, or if it is zero after a minus sign and
the type has no signs.
-/

namespace RowQuery

open Parse Grammar Lexeme

namespace SignedDigits

variable {n : SignedDigits} {k : IntKind}

/-- A type takes a number that it holds, but not zero after a minus sign if the type has no signs. -/
def Fits (n : SignedDigits) (k : IntKind) : Prop := k.Holds n.value ∧ (n.negative → n.value = 0 → k.signed)

instance (n : SignedDigits) (k : IntKind) : Decidable (n.Fits k) := inferInstanceAs (Decidable (_ ∧ _))

theorem value_nonpos (h : n.negative) : n.value ≤ 0 := by
  rw [value, if_pos h]
  omega

/-- Of a type without signs no number with a minus sign fits. -/
theorem Fits.signed (h : n.Fits k) (hnegative : n.negative) : k.signed := by
  obtain ⟨⟨hleast, -⟩, hzero⟩ := h
  by_contra hsigned
  rw [IntKind.least, if_neg hsigned] at hleast
  exact hsigned (hzero hnegative (Int.le_antisymm (value_nonpos hnegative) hleast))

theorem read?_of_fits (h : n.Fits k) : Word.read? k n.text = some ⟨n.value, h.1⟩ := by
  have hsign : ¬(!k.signed && n.text.toList.head? == some '-') := by
    simp only [Bool.and_eq_true, Bool.not_eq_true', beq_iff_eq, n.head_text, not_and, Bool.not_eq_true]
    intro hunsigned
    by_contra hnegative
    simp [h.signed (Bool.eq_true_of_not_eq_false hnegative)] at hunsigned
  rw [Word.read?, if_neg hsign, n.int?_text]
  exact dif_pos h.1

theorem read?_of_not_fits (h : ¬n.Fits k) : Word.read? k n.text = none := by
  by_cases hholds : k.Holds n.value
  · obtain ⟨hnegative, -, hunsigned⟩ : n.negative ∧ n.value = 0 ∧ k.signed = false := by
      simpa [Fits, hholds] using h
    have hsign : n.text.toList.head? = some '-' := n.head_text.mpr hnegative
    rw [Word.read?, if_pos (by simp [hunsigned, hsign])]
  · rw [Word.read?, n.int?_text]
    split
    · rfl
    · exact dif_neg hholds

end SignedDigits

/-- Literals have at least 32 bits. -/
theorem Grammar.bits_of_integerLiteral? {text : String} {e : Expr} {j : IntKind} (h : integerLiteral? text = some e)
    (hty : e.ty = .int j) : 32 ≤ j.bits := by
  simp only [integerLiteral?, Option.bind_eq_some_iff] at h
  obtain ⟨n, -, h⟩ := h
  obtain ⟨k, hk, h⟩ := List.exists_of_findSome?_eq_some h
  obtain ⟨w, -, rfl⟩ := Option.map_eq_some_iff.mp h
  cases hty
  have hkinds : ∀ k ∈ [IntKind.int32, .uint32, .int64, .uint64], 32 ≤ k.bits := by decide
  have hsub : [IntKind.int32, .int64] ⊆ [IntKind.int32, .uint32, .int64, .uint64] := by decide
  split at hk
  · exact hkinds j (hsub hk)
  · exact hkinds j hk

/-- A literal is read again from its text, whatever its type is. -/
theorem Literal.reread?_integer {text : String} {literal : Expr} (h : integerLiteral? text = some literal)
    (k : IntKind) : reread? literal (.int k) = (Word.read? k text).map (.int k) := by
  obtain ⟨j, w, rfl, -⟩ := integerLiteral?_eq_some h
  have hbits := bits_of_integerLiteral? h rfl
  cases j with
  | int32 => rfl
  | uint32 => rfl
  | int64 => rfl
  | uint64 => rfl
  | _ => exact absurd hbits (by decide)

theorem Grammar.isIntegral_of_integerLiteral? {text : String} {e : Expr} (h : integerLiteral? text = some e) :
    e.ty.isIntegral := by
  obtain ⟨j, w, rfl, -⟩ := integerLiteral?_eq_some h
  exact Ty.isIntegral_iff.mpr ⟨j, rfl⟩

/-! ### The rule for comparisons -/

namespace Typing

variable {cat : Catalog} {op : BinaryOp} {literal other left right : Expr} {text : String} {k : IntKind}

theorem isIntegerLiteral_of_narrow (hother : other.Faithful) (hk : other.ty.underlying = .int k)
    (hnarrow : k.bits < 32) : isIntegerLiteral other = false := by
  cases other with
  | literal ty value text =>
      rw [Bool.eq_false_iff]
      intro hliteral
      have hty : ty.isIntegral := ((Bool.and_eq_true _ _).mp hliteral).2
      have htext := hother _ _ _ rfl hty
      obtain ⟨j, w, heq, -⟩ := integerLiteral?_eq_some htext
      cases heq
      cases hk
      have hbits := bits_of_integerLiteral? htext rfl
      omega
  | _ => rfl

theorem mem_shortTypes {t : Ty} (hk : t.underlying = .int k) (hnarrow : k.bits < 32) : t ∈ shortTypes := by
  rcases Ty.eq_of_underlying hk with rfl | rfl <;> revert hnarrow <;> cases k <;> decide

/-- Short integers can be compared for equality, one of them a narrowed literal. -/
theorem exists_equality {l r : Expr} {s : Ty} (cat : Catalog) (symbol : String) (hop : op.isEquality)
    (htyleft : left.ty.isIntegral) (htyright : right.ty.isIntegral) (h : narrowLiteral true left right = .ok (l, r))
    (hl : l.Faithful) (hr : r.Faithful) (hs : s ∈ shortTypes) (htyl : l.ty ∈ [s, s.underlying])
    (htyr : r.ty ∈ [s, s.underlying]) (hform : l.ty = s ∨ r.ty = s) :
    ∃ e, comparison cat op symbol left right = .ok e ∧ e.ty = .boolean := by
  obtain ⟨l', r', hoperands⟩ := exists_operands_of_short cat op symbol hl hr hs htyl htyr hform
  refine ⟨.binary .boolean op l' r', bind_eq_ok.mpr ⟨(l', r'), ?_, ?_⟩, rfl⟩
  · rw [comparable_integral cat op symbol htyleft htyright, hop, h]
    rwa [hop] at hoperands
  · simp only [hop, Bool.not_true, Bool.false_and, Bool.false_eq_true, if_false]
    rfl

theorem equality_of_narrowLiteral {fault : Fault} (cat : Catalog) (symbol : String) (hop : op.isEquality)
    (htyleft : left.ty.isIntegral) (htyright : right.ty.isIntegral) (h : narrowLiteral true left right = .error fault) :
    comparison cat op symbol left right = .error fault := by
  rw [comparison, comparable_integral cat op symbol htyleft htyright, hop, h]
  rfl

section

variable (hliteral : integerLiteral? text = some literal) (hother : other.Faithful)
  (hk : other.ty.underlying = .int k) (hnarrow : k.bits < 32)

include hliteral hk hnarrow

theorem narrowed_integer : narrowed true literal other =
    ((Word.read? k text).map fun v => Expr.constant (.int k) (.int k v)).elim
      (.error (.literalOutOfRange text (.int k))) .ok := by
  have hreread := Literal.reread?_integer hliteral k
  obtain ⟨j, w, rfl, -⟩ := integerLiteral?_eq_some hliteral
  have hbits := bits_of_integerLiteral? hliteral rfl
  have hne : Ty.int k ≠ .int j := by
    rintro ⟨⟩
    omega
  have hintegral : (Ty.int k).isIntegral := Ty.isIntegral_iff.mpr ⟨k, rfl⟩
  have hkept : ¬(!(Ty.int k).isIntegral || (Ty.int k = (Expr.literal (.int j) (.int j w) text).ty : Bool)) := by
    simp only [hintegral, Bool.not_true, Bool.false_or, decide_eq_true_eq]
    exact hne
  have hfaulty : (true && isNarrow (.int k)) = true := by simpa [isNarrow] using hnarrow
  simp only [narrowed, hk]
  rw [if_neg hkept, hreread, if_pos hfaulty]
  cases Word.read? k text <;> rfl

include hother

/-- Next to a narrow integer the literal is the one that is narrowed, on whichever side it stands. -/
theorem narrowLiteral_integer :
    narrowLiteral true literal other = (do return (← narrowed true literal other, other)) ∧
      narrowLiteral true other literal = (do return (other, ← narrowed true literal other)) := by
  have hplain := isIntegerLiteral_of_narrow hother hk hnarrow
  obtain ⟨j, w, rfl, -⟩ := integerLiteral?_eq_some hliteral
  have hinteger : isIntegerLiteral (.literal (.int j) (.int j w) text) := Ty.isIntegral_iff.mpr ⟨j, rfl⟩
  simp only [narrowLiteral, hplain, hinteger, and_self]

/-- A literal whose text is a value of the type of a narrow integer can be compared with it. -/
theorem exists_equality_of_read (cat : Catalog) (symbol : String) (hop : op.isEquality) {v : Word k}
    (hread : Word.read? k text = some v) :
    (∃ e, comparison cat op symbol literal other = .ok e ∧ e.ty = .boolean) ∧
      ∃ e, comparison cat op symbol other literal = .ok e ∧ e.ty = .boolean := by
  obtain ⟨hbefore, hafter⟩ := narrowLiteral_integer hliteral hother hk hnarrow
  rw [narrowed_integer hliteral hk hnarrow, hread] at hbefore hafter
  have htyliteral := isIntegral_of_integerLiteral? hliteral
  have htyother : other.ty.isIntegral := Ty.isIntegral_iff.mpr ⟨k, hk⟩
  have hconstant : (Expr.constant (.int k) (.int k v)).Faithful := .of_ne (by simp)
  have hplain : (Expr.constant (.int k) (.int k v)).ty ∈ [other.ty, other.ty.underlying] := by
    rw [hk]
    exact List.mem_cons_of_mem _ List.mem_cons_self
  have hshort := mem_shortTypes hk hnarrow
  exact ⟨exists_equality cat symbol hop htyliteral htyother hbefore hconstant hother hshort hplain List.mem_cons_self
      (Or.inr rfl),
    exists_equality cat symbol hop htyother htyliteral hafter hother hconstant hshort List.mem_cons_self hplain
      (Or.inl rfl)⟩

/-- A literal whose text is no value of the type of a narrow integer is refused next to it. -/
theorem equality_of_not_read (cat : Catalog) (symbol : String) (hop : op.isEquality)
    (hread : Word.read? k text = none) :
    comparison cat op symbol literal other = .error (.literalOutOfRange text (.int k)) ∧
      comparison cat op symbol other literal = .error (.literalOutOfRange text (.int k)) := by
  obtain ⟨hbefore, hafter⟩ := narrowLiteral_integer hliteral hother hk hnarrow
  rw [narrowed_integer hliteral hk hnarrow, hread] at hbefore hafter
  have htyliteral := isIntegral_of_integerLiteral? hliteral
  have htyother : other.ty.isIntegral := Ty.isIntegral_iff.mpr ⟨k, hk⟩
  exact ⟨equality_of_narrowLiteral cat symbol hop htyliteral htyother hbefore,
    equality_of_narrowLiteral cat symbol hop htyother htyliteral hafter⟩

end

end Typing

/-! ### Texts -/

namespace Environment

variable {env : Environment} {decls : List ParamDecl} {result : Option Ty} {a : String} {args : List Argument}
  {l : Lambda} {k : IntKind} {op : BinaryOp} {sign : String}

/-- A literal is an operand of a comparison. -/
theorem compilesOperand_spaced {symbols : Symbols} (hsymbols : Symbols.ofText (bindParams decls) args = .ok symbols)
    (n : SignedDigits) {blank : List Char} (hblank : ∀ c ∈ blank, Text.isBlank c) {e : Expr}
    (h : integerLiteral? n.text = some e) :
    env.CompilesOperand decls (n.spaced blank) args ⟨bindParams decls, e, decls.length⟩ := by
  have hinner := level_derived (maxDepth - 1)
  have hoperand : Takes (reader (level (maxDepth - 1)) 6) (env.scope (bindParams decls) symbols)
      (decls.length, .empty) n.lexemes e (decls.length, .empty) [] := takes_digits hinner n h (.nil 6)
  have hadditive : Takes (reader (level (maxDepth - 1)) 4) _ _ _ _ _ [] :=
    takes_descend hinner (k := 6) hoperand (by decide) (.nil 4)
  have hphrase : env.CompilesPhrase 4 decls (n.spaced blank) args _ :=
    .of_takes hsymbols (n.scans_spaced hblank) hadditive
  exact hphrase

/-- A narrow integer, on either side, is compared for equality with exactly the integer literals whose numbers its type
holds, but for zero after a minus sign where the type has no signs; all others are refused as out of its range. -/
theorem compile_narrow_equality (h : env.CompilesOperand decls a args l) (hk : l.body.ty.underlying = .int k)
    (hnarrow : k.bits < 32) (hsign : (sign, op) ∈ BinaryOp.signs) (hop : op.isEquality) (n : SignedDigits)
    (hrange : n.InRange) {blank : List Char} (hblank : ∀ c ∈ blank, Text.isBlank c)
    (hresult : ∀ t ∈ result, t = .boolean) (shapes : Shapes) :
    ∀ text ∈ [a ++ " " ++ sign ++ " " ++ n.spaced blank, n.spaced blank ++ " " ++ sign ++ " " ++ a],
      let compiled := ((env.compile decls result text args).exec shapes).1
      (n.Fits k → ∃ l', compiled = .ok l') ∧
        (¬n.Fits k → ∃ pos, compiled = .error ⟨.literalOutOfRange n.text (.int k), pos⟩) := by
  obtain ⟨hprecedence, lexeme, rfl, hwhole, hlexeme⟩ := BinaryOp.exists_lexeme hsign
  obtain ⟨symbols, -, -, hsymbols, -⟩ := h.phrase.takes
  obtain ⟨j, hj⟩ := SignedDigits.exists_kind hrange
  obtain ⟨w, -, hliteral⟩ := SignedDigits.exists_literal hj
  have hoperand : env.CompilesOperand decls (n.spaced blank) args _ :=
    compilesOperand_spaced hsymbols n hblank hliteral
  have hfaithful := h.compiles.faithful
  have hfaithful' (shift : Nat) := hfaithful.mapSlots (raise decls.length shift)
  have hk' (shift : Nat) : (l.body.mapSlots (raise decls.length shift)).ty.underlying = .int k := by
    rwa [Expr.ty_substitute]
  have hjoins := joins_comparison hlexeme hwhole
  intro text htext
  simp only [List.mem_cons, List.not_mem_nil, or_false] at htext
  -- whichever operand comes second has its slots renumbered, which no literal has
  rcases htext with rfl | rfl
  · refine ⟨fun hfits => ?_, fun hfits => ?_⟩
    · have hread := SignedDigits.read?_of_fits hfits
      obtain ⟨l', hl'⟩ := h.exists_comparison hlexeme hwhole hoperand (fun shift =>
        (Typing.exists_equality_of_read hliteral hfaithful hk hnarrow env.catalog lexeme.text hop hread).2) hresult
      exact ⟨l', hl'.compile_eq_ok shapes⟩
    · have hread := SignedDigits.read?_of_not_fits hfits
      exact h.phrase.join_fails hjoins hoperand.phrase (fun shift =>
        (Typing.equality_of_not_read hliteral hfaithful hk hnarrow env.catalog lexeme.text hop hread).2) result shapes
  · refine ⟨fun hfits => ?_, fun hfits => ?_⟩
    · have hread := SignedDigits.read?_of_fits hfits
      obtain ⟨l', hl'⟩ := hoperand.exists_comparison hlexeme hwhole h (fun shift =>
        (Typing.exists_equality_of_read hliteral (hfaithful' shift) (hk' shift) hnarrow env.catalog lexeme.text hop
          hread).1) hresult
      exact ⟨l', hl'.compile_eq_ok shapes⟩
    · have hread := SignedDigits.read?_of_not_fits hfits
      exact hoperand.phrase.join_fails hjoins h.phrase (fun shift =>
        (Typing.equality_of_not_read hliteral (hfaithful' shift) (hk' shift) hnarrow env.catalog lexeme.text hop
          hread).1) result shapes

/-- The least signed integer of 8 bits, and the one below it. -/
theorem compile_narrow_equality_least :
    let env : Environment := ⟨.empty, .empty⟩
    let decls : List ParamDecl := [⟨some "x", .nullable (.int .sbyte)⟩]
    let compiled (text : String) := ((env.compile decls (some .boolean) text []).exec .empty).1
    (∃ l, compiled "x != - 0128" = .ok l) ∧
      ∃ pos, compiled "- 0129 != x" = .error ⟨.literalOutOfRange "-0129" (.int .sbyte), pos⟩ := by
  intro env decls compiled
  have hrun : ((env.compileOperand decls "x" []).exec .empty).1.toOption.any
      (fun l => l.body.ty.underlying = .int .sbyte) = true := by
    decide +kernel
  obtain ⟨l, hl, hk⟩ := toOption_any.mp hrun
  have hoperand : env.CompilesOperand decls "x" [] l := ⟨.empty, hl⟩
  have hsign : ("!=", BinaryOp.notEqual) ∈ BinaryOp.signs := by decide
  have hblank : ∀ c ∈ [' '], Text.isBlank c := List.all_eq_true.mp (by decide)
  have hresult : ∀ t ∈ some Ty.boolean, t = .boolean := by simp
  let least : SignedDigits := ⟨true, ['0', '1', '2', '8'], by simp, List.all_eq_true.mp (by decide)⟩
  let below : SignedDigits := ⟨true, ['0', '1', '2', '9'], by simp, List.all_eq_true.mp (by decide)⟩
  have hleast := compile_narrow_equality hoperand (of_decide_eq_true hk) (by decide) hsign rfl least
    (by decide) hblank hresult .empty "x != - 0128" List.mem_cons_self
  have hbelow := compile_narrow_equality hoperand (of_decide_eq_true hk) (by decide) hsign rfl below
    (by decide) hblank hresult .empty "- 0129 != x" (List.mem_cons_of_mem _ List.mem_cons_self)
  exact ⟨hleast.1 (by decide), hbelow.2 (by decide)⟩

/-- Zero after a minus sign is refused where zero is not. -/
theorem compile_narrow_equality_minus_zero :
    let env : Environment := ⟨.empty, .empty⟩
    let decls : List ParamDecl := [⟨some "x", .int .byte⟩]
    (∃ l, ((env.compile decls none "x == 0" []).exec .empty).1 = .ok l) ∧
      ∃ e, ((env.compile decls none "x == -0" []).exec .empty).1 = .error e ∧
        e.message .empty = "Literal '-0' is out of range for type 'Byte' (at index 2)" := by
  intro env decls
  have hfails : (failure? ((env.compile decls none "x == -0" []).exec .empty).1).any (fun e =>
      e.message .empty = "Literal '-0' is out of range for type 'Byte' (at index 2)") = true := by
    decide +kernel
  obtain ⟨e, he, hmessage⟩ := failure?_any.mp hfails
  exact ⟨toOption_isSome.mp (by decide +kernel), e, he, of_decide_eq_true hmessage⟩

end Environment

end RowQuery
