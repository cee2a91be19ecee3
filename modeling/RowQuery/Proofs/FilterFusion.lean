import RowQuery.Proofs.Parentheses
import RowQuery.Proofs.QuerySteps
import RowQuery.Proofs.Soundness

/-!
Conditions one after the other. Two texts that compile as conditions also compile as one, each in
parentheses and with `&&` between them, and filtering by that text is filtering by the first one and then by
the second one. A row that the first condition drops is not looked at by the second one in either way: the
first one is true or false of it, never unknown, because the arguments are of the types they are given with.
-/

namespace RowQuery

open Parse Grammar Lexeme

/-! ### The text -/

/-- Two conditions as one. -/
def Query.conjunction (p₁ p₂ : String) : String := "(" ++ p₁ ++ ") && (" ++ p₂ ++ ")"

def Lexeme.conjunction (ls₁ ls₂ : List Lexeme) : List Lexeme :=
  openParen :: (ls₁ ++ [closeParen]) ++ BinaryOp.andAlso.lexeme :: (openParen :: (ls₂ ++ [closeParen]))

theorem Scans.conjunction {p₁ p₂ : String} {ls₁ ls₂ : List Lexeme}
    (h₁ : Scans (Query.parenthesized p₁).toList (Lexeme.parenthesized ls₁))
    (h₂ : Scans (Query.parenthesized p₂).toList (Lexeme.parenthesized ls₂)) :
    Scans (Query.conjunction p₁ p₂).toList (Lexeme.conjunction ls₁ ls₂) := by
  have hand : BinaryOp.andAlso.lexeme.Whole := ⟨_, _, rfl, by decide, rfl⟩
  have hall := h₁.joined hand h₂
  simpa [Query.conjunction, Lexeme.conjunction, Query.parenthesized, Lexeme.parenthesized, BinaryOp.lexeme] using hall

/-! ### Compilation -/

section

variable {scope : Scope} {m m₁ m₂ : Nat × Shapes} {ls₁ ls₂ : List Lexeme} {e₁ e₂ : Expr} {n : Nat}

theorem takes_conjunction
    (h₁ : ∀ rest, Stops 6 rest → Takes (unary (level n)) scope m (Lexeme.parenthesized ls₁) e₁ m₁ rest)
    (h₂ : ∀ rest, Stops 6 rest → Takes (unary (level n)) scope m₁ (Lexeme.parenthesized ls₂) e₂ m₂ rest)
    (hty₁ : e₁.ty = .boolean) (hty₂ : e₂.ty = .boolean) :
    Takes (level (n + 1)).expression scope m (Lexeme.conjunction ls₁ ls₂)
      (.binary .boolean .andAlso e₁ e₂) m₂ [] := by
  have hinner := level_derived n
  have hstart : Stops 3 (BinaryOp.andAlso.lexeme :: (Lexeme.parenthesized ls₂ ++ [])) := .of_lexeme (by decide)
  have hend : Stops 0 [] := .nil 0
  have hfirst := takes_descend hinner (k := 6) (h₁ _ hstart.tight) (by decide) hstart
  have hsecond := takes_descend hinner (j := 3) (k := 6) (h₂ [] hend.tight) (by decide) (hend.mono (by decide))
  have hjoin : ∀ t : Token, t.lexeme = BinaryOp.andAlso.lexeme →
      operators 2 t = some (joining BinaryOp.andAlso.rule) ∧ Takes (joining BinaryOp.andAlso.rule t e₁ e₂)
        scope m₂ [] (.binary .boolean .andAlso e₁ e₂) m₂ [] :=
    fun t ht => ⟨operators_lexeme ht, takes_typed (Typing.logical_boolean scope.catalog .andAlso t.text hty₁ hty₂)⟩
  have htakes := ((Gathers.of_takes hfirst).next hjoin hsecond).takes hinner (by decide) (hend.mono (by decide))
  exact takes_descend hinner htakes (by decide) hend

end

/-- Two texts that compile as conditions, with room for one more level of nesting, compile as one. -/
theorem Environment.CompilesWithin.conjunction {env : Environment} {decls : List ParamDecl}
    {p₁ p₂ : String} {args : List Argument} {l₁ l₂ : Lambda}
    (h₁ : env.CompilesWithin (maxDepth - 1) decls (some .boolean) p₁ args l₁)
    (h₂ : env.CompilesWithin (maxDepth - 1) decls (some .boolean) p₂ args l₂) :
    ∃ (l : Lambda) (shift : Nat),
      env.Compiles decls (some .boolean) (Query.conjunction p₁ p₂) args l ∧ l.params = bindParams decls ∧
      l.body = .binary .boolean .andAlso l₁.body (l₂.body.mapSlots (raise decls.length shift)) := by
  obtain ⟨h₁, hty₁⟩ := h₁.condition
  obtain ⟨h₂, hty₂⟩ := h₂.condition
  obtain ⟨symbols, ls₁, grow₁, used₁, hsymbols, hscans₁, -, htakes₁⟩ := h₁.takes_parenthesized (n := maxDepth - 2)
  obtain ⟨symbols', ls₂, grow₂, used₂, hsymbols', hscans₂, -, htakes₂⟩ := h₂.takes_parenthesized (n := maxDepth - 2)
  obtain rfl : symbols = symbols' := Except.ok.inj (hsymbols.symm.trans hsymbols')
  have hfirst := htakes₁ 0 .empty
  rw [raise_zero, Expr.mapSlots_id] at hfirst
  have hall := takes_conjunction hfirst (htakes₂ (used₁ + 0) (grow₁ .empty)) hty₁ (by rw [Expr.ty_substitute, hty₂])
  exact ⟨_, used₁ + 0, compiles_of_takes hsymbols (hscans₁.conjunction hscans₂) hall (by simp [Expr.ty]), rfl, rfl⟩

/-! ### Evaluation -/

theorem Environment.Compiles.truth {cat : Catalog} {types : List Ty} {element : Ty} {text : String}
    {args : List Argument} {l : Lambda} (hcat : cat.WellBehaved) (hargs : ∀ arg ∈ args, arg.Admissible cat)
    (h : (⟨cat, .ofTypes types⟩ : Environment).Compiles [⟨none, element⟩] (some .boolean) text args l)
    {row v : Value} (hrow : cat.conforms row element) (hv : cat.evalLambda l [row] = .ok v) :
    ∃ b, v = .boolean b := by
  obtain ⟨hparams, symbols, body, -, -, hresult⟩ := h.derives
  obtain ⟨hbody, hty⟩ := Typing.result_boolean hresult
  have hsafe := h.safe hcat rfl (fun arg harg => (hargs arg harg).sound hcat) [row]
  rw [Lambda.paramTypes, hparams, Environment.bindParams_types, hv, Lambda.resultType, hbody, hty] at hsafe
  refine Catalog.conforms_boolean.mp (hsafe ?_)
  simp [Catalog.conformAll, hrow]

end RowQuery
