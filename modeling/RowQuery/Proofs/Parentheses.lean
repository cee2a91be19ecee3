import RowQuery.Proofs.Embedding

/-!
Texts in parentheses. A text that compiles with room for one more level of nesting is read in parentheses as the
expression that it is by itself, wherever the parentheses stand; only its variables get slots of their own. What
compiles as a condition is an expression of truth values by itself, since no conversion makes a truth value.
-/

namespace RowQuery

open Parse Grammar Lexeme

/-- A text in parentheses. -/
def Query.parenthesized (text : String) : String := "(" ++ text ++ ")"

/-- Lexemes in parentheses. -/
def Lexeme.parenthesized (ls : List Lexeme) : List Lexeme := openParen :: (ls ++ [closeParen])

theorem Scans.parenthesized {text : String} {ls : List Lexeme} (h : Scans text.toList ls) :
    Scans (Query.parenthesized text).toList (Lexeme.parenthesized ls) := by
  have hopen : openParen.Whole := ⟨_, _, rfl, by decide, rfl⟩
  have hclose : closeParen.Whole := ⟨_, _, rfl, by decide, rfl⟩
  have hlast := h.append (.single hclose) fun l _ => divides_closeParen.ends l.kind []
  have hall := hlast.cons hopen fun _ _ => rfl
  simpa [Query.parenthesized, Lexeme.parenthesized, openParen, closeParen] using hall

/-- No conversion makes a truth value. -/
theorem Typing.result_boolean {cat : Catalog} {e e' : Expr}
    (h : Typing.result cat e (some .boolean) = .ok e') : e' = e ∧ e.ty = .boolean := by
  obtain ⟨hnone, -⟩ | ⟨t, heq, hpromotes⟩ := result_ok h
  · cases hnone
  · cases heq
    cases hpromotes with
    | same hty => exact ⟨rfl, hty⟩
    | null _ ht => cases ht
    | reread hread =>
        exfalso
        unfold Literal.reread? at hread
        split at hread
        · cases hread
        · simp only [Ty.underlying, Literal.number?, Literal.member?] at hread
          split at hread <;> simp at hread
        · cases hread
    | convert hne hcompatible _ =>
        exfalso
        unfold Catalog.isCompatible at hcompatible
        rw [if_neg hne] at hcompatible
        cases hty : e.ty <;> simp_all [Ty.isValueType, Ty.isNullable, Ty.underlying, Ty.widens]
    | reference _ ht _ => cases ht

namespace Environment.CompilesWithin

variable {env : Environment} {decls : List ParamDecl} {text : String} {args : List Argument} {l : Lambda} {n : Nat}

/-- A condition is an expression of truth values. -/
theorem condition (h : env.CompilesWithin n decls (some .boolean) text args l) :
    env.CompilesWithin n decls none text args l ∧ l.body.ty = .boolean := by
  obtain ⟨shapes, h⟩ := h
  obtain ⟨hparams, body, htext, hresult⟩ := Environment.compileWithin_eq_ok.mp h
  obtain ⟨hbody, hty⟩ := Typing.result_boolean hresult
  refine ⟨⟨shapes, Environment.compileWithin_eq_ok.mpr ⟨hparams, body, htext, ?_⟩⟩, by rw [hbody, hty]⟩
  rw [hbody]
  rfl

/-- An expression in parentheses may stand at the start of a phrase. -/
theorem takes_parenthesized_start (h : env.CompilesWithin (n + 1) decls none text args l) :
    ∃ (symbols : Symbols) (ls : List Lexeme) (grow : Shapes → Shapes) (used : Nat),
      Symbols.ofText (bindParams decls) args = .ok symbols ∧ Scans text.toList ls ∧ l.slots = decls.length + used ∧
      ∀ (shift : Nat) (made : Shapes) (rest : List Lexeme),
        Takes (primaryStart (level (n + 1))) (env.scope (bindParams decls) symbols) (decls.length + shift, made)
          (Lexeme.parenthesized ls) (l.body.mapSlots (raise decls.length shift))
          (decls.length + (used + shift), grow made) rest := by
  obtain ⟨made, h⟩ := h
  obtain ⟨hparams, body, htext, hresult⟩ := Environment.compileWithin_eq_ok.mp h
  rw [hparams] at htext
  cases hresult
  obtain ⟨symbols, ls, grow, hsymbols, hscans, htakes⟩ :=
    ReadsText.takes (k := 0) (n := n) (Nat.le_refl _) (bindParams_slots decls) htext
  obtain ⟨used, hused⟩ : ∃ used, l.slots = (bindParams decls).length + used :=
    Nat.exists_eq_add_of_le (htext.le_slots fun h => ((level_derived (n + 1)).expression h).1.le)
  rw [length_bindParams] at hused
  refine ⟨symbols, ls, grow, used, hsymbols, hscans, hused, ?_⟩
  intro shift made rest
  have hinside := htakes shift made (closeParen :: rest) (.of_first (show .closeParen ∈ ends by decide))
    (.of_first (Or.inl rfl))
  rw [length_bindParams, hused, Nat.add_assoc] at hinside
  exact takes_parens_start hinside

/-- An expression in parentheses is an operand of the tightest level. -/
theorem takes_parenthesized (h : env.CompilesWithin (n + 1) decls none text args l) :
    ∃ (symbols : Symbols) (ls : List Lexeme) (grow : Shapes → Shapes) (used : Nat),
      Symbols.ofText (bindParams decls) args = .ok symbols ∧
      Scans (Query.parenthesized text).toList (Lexeme.parenthesized ls) ∧ l.slots = decls.length + used ∧
      ∀ (shift : Nat) (made : Shapes) (rest : List Lexeme), Stops 6 rest →
        Takes (unary (level (n + 1))) (env.scope (bindParams decls) symbols) (decls.length + shift, made)
          (Lexeme.parenthesized ls) (l.body.mapSlots (raise decls.length shift))
          (decls.length + (used + shift), grow made) rest := by
  obtain ⟨symbols, ls, grow, used, hsymbols, hscans, hused, htakes⟩ := h.takes_parenthesized_start
  refine ⟨symbols, ls, grow, used, hsymbols, hscans.parenthesized, hused, fun shift made rest hstops => ?_⟩
  exact takes_unary_of_primary (takes_primary (level_derived (n + 1)) (htakes shift made rest) hstops)
    fun _ => unaryOperator?_openParen

end Environment.CompilesWithin

end RowQuery
