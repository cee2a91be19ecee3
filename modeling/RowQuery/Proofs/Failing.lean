import RowQuery.Proofs.Phrases

/-!
Texts that are refused. A reader fails if its first part does, or if a later part does where the parts before it
have left off. So an operand that is refused makes every phrase that starts with it fail, up to the whole text, and
the error is the same.
-/

namespace RowQuery

open Parse Grammar Lexeme

namespace Parse

variable {α β : Type} {scope : Scope} {s s' : Reading} {e : CompileError} {p : Parse α}

/-- A reader fails with an error. -/
def Fails (p : Parse α) (scope : Scope) (s : Reading) (e : CompileError) : Prop := (exec p scope s).1 = .error e

theorem Fails.bind (h : Fails p scope s e) (f : α → Parse β) : Fails (p >>= f) scope s e := by
  rw [Fails, exec_bind]
  rcases hp : exec p scope s with ⟨r, m⟩
  rw [Fails, hp] at h
  obtain rfl : r = .error e := h
  rfl

theorem Reads.fails {a : α} (h : Reads p scope s a s') {f : α → Parse β} (hf : Fails (f a) scope s' e) :
    Fails (p >>= f) scope s e := by
  rw [Fails, exec_bind, h]
  exact hf

theorem fails_fail (fault : Fault) : Fails (fail fault : Parse α) scope s ⟨fault, s.token.pos⟩ := rfl

theorem fails_typed {pos : Nat} {rule : Catalog → Except Fault Expr} {fault : Fault}
    (h : rule scope.catalog = .error fault) : Fails (typed pos rule) scope s ⟨fault, pos⟩ := by
  refine (reads_read.mpr ⟨rfl, rfl⟩).fails ?_
  rw [h]
  rfl

/-- A repetition fails if its first step does. -/
theorem Fails.repeatStep {σ : Type} {step : σ → Parse (Option σ)} {x : σ} (h : Fails (step x) scope s e) :
    Fails (Parse.repeatStep step x) scope s e := (reads_get.mpr ⟨rfl, rfl⟩).fails (h.bind _)

end Parse

namespace Grammar

variable {scope : Scope} {s : Reading} {e : CompileError} {inner : Level}

theorem fails_unary (h : Fails (primary inner) scope s e) (hop : unaryOperator? s.token = none) :
    Fails (unary inner) scope s e := by
  refine (reads_token.mpr ⟨rfl, rfl⟩).fails ?_
  rw [hop]
  exact h

/-- A phrase of a level that is refused makes the phrases of all looser levels fail. -/
theorem fails_descend {j k : Nat} (h : Fails (reader inner k) scope s e) (hj : j ≤ k) :
    Fails (reader inner j) scope s e := by
  obtain ⟨d, rfl⟩ := Nat.exists_eq_add_of_le hj
  induction d with
  | zero => exact h
  | succ d ih =>
      refine ih ?_ (by omega)
      rcases Nat.lt_or_ge (j + d) 6 with hlt | hge
      · cases hlevel : j + d with
        | zero =>
            rw [← Nat.add_assoc, hlevel] at h
            exact (reads_token.mpr ⟨rfl, rfl⟩).fails (h.bind _)
        | succ i =>
            rw [← Nat.add_assoc, hlevel] at h
            rw [reader_eq_chain (by omega)]
            exact h.bind _
      · rw [reader_eq_unary hge]
        rwa [reader_eq_unary (by omega)] at h

/-- An operand that is refused makes the phrases of all levels fail. -/
theorem fails_reader (h : Fails (unary inner) scope s e) (k : Nat) : Fails (reader inner k) scope s e := by
  rcases Nat.le_total k 6 with hk | hk
  · exact fails_descend (k := 6) h hk
  · rwa [reader_eq_unary hk]

end Grammar

/-! ### Lexemes that are refused -/

/-- A reader finds a fault in what is left of a text. -/
def Refuses {α : Type} (p : Parse α) (scope : Scope) (m : Nat × Shapes) (ls : List Lexeme) (fault : Fault) : Prop :=
  ∀ s : Reading, s.Ahead ls → s.made = m → ∃ pos, Fails p scope s ⟨fault, pos⟩

section

variable {α β : Type} {scope : Scope} {m m' : Nat × Shapes} {ls rest : List Lexeme} {fault : Fault} {p : Parse α}

theorem Refuses.bind (h : Refuses p scope m ls fault) (f : α → Parse β) : Refuses (p >>= f) scope m ls fault := by
  intro s hs hm
  obtain ⟨pos, hpos⟩ := h s hs hm
  exact ⟨pos, hpos.bind f⟩

/-- The fault is found after a phrase that was taken. -/
theorem Takes.refuses {f : α → Parse β} {a : α} (h : Takes p scope m ls a m' rest)
    (hf : Refuses (f a) scope m' rest fault) : Refuses (p >>= f) scope m (ls ++ rest) fault := by
  intro s hs hm
  obtain ⟨s', hs', hahead, hmade⟩ := h s hs hm
  obtain ⟨pos, hpos⟩ := hf s' hahead hmade
  exact ⟨pos, hs'.fails hpos⟩

theorem Refuses.look {f : Token → Parse α} (h : ∀ t : Token, t.Shows ls → Refuses (f t) scope m ls fault) :
    Refuses (token >>= f) scope m ls fault := by
  intro s hs hm
  obtain ⟨pos, hpos⟩ := h s.token hs.shows s hs hm
  exact ⟨pos, (reads_token.mpr ⟨rfl, rfl⟩).fails hpos⟩

end

/-- A text does not compile if its expression is refused. -/
theorem Environment.compile_of_fails {env : Environment} {decls : List ParamDecl} {args : List Argument} {text : String}
    {shapes : Shapes} {symbols : Symbols} {s : Reading} {e : CompileError} (result : Option Ty)
    (hsymbols : Symbols.ofText (bindParams decls) args = .ok symbols)
    (hadvance : Reads advance (env.scope (bindParams decls) symbols) (start (bindParams decls) text shapes) () s)
    (h : Fails expression (env.scope (bindParams decls) symbols) s e) :
    ((env.compile decls result text args).exec shapes).1 = .error e := by
  have hwhole : Fails (whole result) (env.scope (bindParams decls) symbols) s e :=
    (reads_token.mpr ⟨rfl, rfl⟩).fails (h.bind _)
  have htext := hadvance.fails (f := fun _ => whole result) hwhole
  rw [Fails, Parse.exec] at htext
  rw [compile, Shaping.exec_bind]
  simp only [reading, Shaping.exec, hsymbols]
  rcases hrun : (advance >>= fun _ => whole result) (env.scope (bindParams decls) symbols)
    (start (bindParams decls) text shapes) with ⟨r, after⟩
  rw [hrun] at htext
  obtain rfl : r = .error e := htext
  rfl

end RowQuery
