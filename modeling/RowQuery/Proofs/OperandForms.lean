import RowQuery.Proofs.TypingRules

/-!
The forms in which the typing rules use their operands. A rule takes an operand as it is or, if it is a literal, as the
value that its text is read as, and puts at most one conversion around it. What holds of an expression whatever its
literals and conversions are is therefore kept by every rule that pairs or converts operands.
-/

namespace RowQuery

/-- An operand as a rule takes it: as it is or, if it is a literal, as a value. -/
inductive Taken : Expr → Expr → Prop
  | same (e : Expr) : Taken e e
  | value {ty : Ty} {v : Value} {text : String} (t : Ty) (w : Value) : Taken (.literal ty v text) (.constant t w)

/-- An operand as a rule uses it: as it is taken, with at most one conversion around it. -/
inductive Adapted (e : Expr) : Expr → Prop
  | plain {e' : Expr} (h : Taken e e') : Adapted e e'
  | converted {e' : Expr} (h : Taken e e') (t : Ty) (checked : Bool) : Adapted e (.convert t checked e')

variable {cat : Catalog} {e e' l r l' r' : Expr} {symbol : String}

theorem Adapted.refl (e : Expr) : Adapted e e := .plain (.same e)

theorem Adapted.convert (e : Expr) (t : Ty) (checked : Bool) : Adapted e (.convert t checked e) :=
  .converted (.same e) t checked

theorem taken_of_isNullLiteral (h : e.isNullLiteral) (t : Ty) (v : Value) : Taken e (.constant t v) := by
  cases e with
  | literal ty v text => exact .value _ _
  | _ => cases h

theorem taken_of_reread {t : Ty} {v : Value} (h : Literal.reread? e t = some v) : Taken e (.constant t v) := by
  cases e with
  | literal ty v text => exact .value _ _
  | _ => cases h

theorem Promotes.adapted {t : Ty} {exact : Bool} (h : Promotes cat e t exact e') : Adapted e e' := by
  cases h with
  | same _ => exact .refl e
  | null he _ => exact .plain (taken_of_isNullLiteral he _ _)
  | reread hv => exact .plain (taken_of_reread hv)
  | convert _ _ _ => exact .convert e _ _
  | reference _ _ _ => exact .refl e

/-- What is taken may still be promoted: a value is no literal, so it is not read again. -/
theorem Taken.promotes {t : Ty} {exact : Bool} {taken : Expr} (htaken : Taken e taken)
    (h : Promotes cat taken t exact e') : Adapted e e' := by
  cases htaken with
  | same => exact h.adapted
  | value s w =>
      have hadapted := h.adapted
      cases hadapted with
      | plain hsame =>
          cases hsame
          exact .plain (.value s w)
      | converted hsame =>
          cases hsame
          exact .converted (.value s w) _ _

theorem Unified.adapted (h : Unified cat l r l' r') : Adapted l l' ∧ Adapted r r' := by
  cases h with
  | same _ => exact ⟨.refl l, .refl r⟩
  | left h => exact ⟨h.adapted, .refl r⟩
  | right h => exact ⟨.refl l, h.adapted⟩

namespace Typing

theorem narrowed_taken {equality : Bool} (h : narrowed equality l r = .ok e) : Taken l e := by
  rcases narrowed_ok h with rfl | ⟨-, v, hread, rfl⟩
  · exact .same e
  · exact taken_of_reread hread

theorem narrowLiteral_taken {equality : Bool} (h : narrowLiteral equality l r = .ok (l', r')) :
    Taken l l' ∧ Taken r r' := by
  rcases narrowLiteral_ok h with ⟨rfl, rfl⟩ | ⟨hl, rfl⟩ | ⟨rfl, hr⟩
  · exact ⟨.same _, .same _⟩
  · exact ⟨narrowed_taken hl, .same _⟩
  · exact ⟨.same _, narrowed_taken hr⟩

theorem operands_adapted {signatures : List (List Ty)} (h : operands cat signatures symbol l r = .ok (l', r')) :
    Adapted l l' ∧ Adapted r r' := by
  obtain ⟨_, _, -, hl, hr⟩ := operands_ok h
  exact ⟨hl.adapted, hr.adapted⟩

theorem comparable_adapted {op : BinaryOp} (h : comparable cat op symbol l r = .ok (l', r')) :
    Adapted l l' ∧ Adapted r r' := by
  rcases comparable_ok h with hunified | ⟨l₁, r₁, hnarrow, hoperands⟩
  · exact hunified.adapted
  · obtain ⟨hl₁, hr₁⟩ := narrowLiteral_taken hnarrow
    obtain ⟨_, _, -, hl, hr⟩ := operands_ok hoperands
    exact ⟨hl₁.promotes hl, hr₁.promotes hr⟩

theorem conversion_adapted {target : Ty} (h : conversion cat l target = .ok e) : Adapted l e := by
  rcases conversion_ok h with rfl | ⟨checked, rfl⟩
  · exact .refl e
  · exact .convert l _ _

theorem result_adapted {result : Option Ty} (h : Typing.result cat e result = .ok e') : Adapted e e' := by
  rcases result_ok h with ⟨-, rfl⟩ | ⟨t, -, hpromotes⟩
  · exact .refl _
  · exact hpromotes.adapted

end Typing

end RowQuery
