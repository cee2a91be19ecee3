import RowQuery.Proofs.Phrases

/-!
Reading back what was written. A well-typed formula, written with no more parentheses than needed, is taken
at the level of its own precedence, and as the first operands of a longer chain if it is an operation; so a
text that spells it compiles to its typed expression.
-/

namespace RowQuery

open Parse Grammar Lexeme

theorem SignedDigits.int?_text (n : SignedDigits) : Digits.int? n.text.toList = some n.value := by
  have hnat : Digits.nat? n.digits = some (Digits.value n.digits) := by
    rw [Digits.nat?, if_neg]
    simpa [n.nonempty] using n.isDigit
  have hunsigned : Digits.int? n.digits = some (Digits.value n.digits : Int) := by
    obtain ⟨c, cs, hdigits⟩ := List.exists_cons_of_ne_nil n.nonempty
    have hc : c.isDigit := n.isDigit c (by simp [hdigits])
    unfold Digits.int?
    split
    · rename_i heq
      cases hdigits.symm.trans heq
      exact absurd hc (by decide)
    · rename_i heq
      cases hdigits.symm.trans heq
      exact absurd hc (by decide)
    · rw [hnat]
      rfl
  cases hnegative : n.negative with
  | true => simp [text, value, hnegative, Digits.int?, hnat]
  | false => simpa [text, value, hnegative] using hunsigned

namespace Grammar

section

variable {scope : Scope} {inner : Level} {rest : List Lexeme} {e : Expr} {m : Nat × Shapes}

/-! ### Names and numbers -/

theorem takes_literal (hinner : inner.Derived) {text : String} (h : integerLiteral? text = some e)
    (hstops : Stops 6 rest) : Takes (primary inner) scope m [⟨.integerLiteral, text⟩] e m rest := by
  refine takes_primary hinner (Takes.look fun t ht => ?_) hstops
  have hlexeme : t.lexeme = ⟨.integerLiteral, text⟩ := ht
  have hkind : t.kind = .integerLiteral := congrArg Lexeme.kind hlexeme
  have htext : t.text = text := congrArg Lexeme.text hlexeme
  simp only [hkind, htext, literal, h]
  exact Takes.skip (takes_pure _)

/-- A minus sign and the digits after it are one literal. -/
theorem takes_digits (hinner : inner.Derived) (n : SignedDigits) (h : integerLiteral? n.text = some e)
    (hstops : Stops 6 rest) : Takes (unary inner) scope m n.lexemes e m rest := by
  have hliteral : Takes (primary inner) scope m [⟨.integerLiteral, n.text⟩] e m rest :=
    takes_literal hinner h hstops
  cases hnegative : n.negative with
  | false =>
      rw [SignedDigits.text, hnegative] at hliteral
      rw [SignedDigits.lexemes, hnegative]
      refine takes_unary_of_primary hliteral fun t ht => ?_
      have hkind : t.kind = .integerLiteral := kind_of_shows ht
      simp [unaryOperator?, hkind, Token.isWord]
  | true =>
      rw [SignedDigits.text, hnegative] at hliteral
      rw [SignedDigits.lexemes, hnegative]
      refine Takes.look fun t ht => ?_
      have hkind : t.kind = .minus := kind_of_shows ht
      have hop : unaryOperator? t = some .negate := by simp [unaryOperator?, hkind]
      rw [hop]
      refine (Takes.look fun next hnext => ?_).skip
      have hlexeme : next.lexeme = ⟨.integerLiteral, String.ofList n.digits⟩ := hnext
      have hdigits : next.kind = .integerLiteral := congrArg Lexeme.kind hlexeme
      have htext : next.text = String.ofList n.digits := congrArg Lexeme.text hlexeme
      rw [if_pos ⟨rfl, Or.inl hdigits⟩, hdigits, htext]
      exact hliteral.retoken

theorem takes_number (hinner : inner.Derived) (n : Numeral) (hstops : Stops 6 rest) :
    Takes (unary inner) scope m n.lexemes (Formula.number n).expr m rest := by
  have hliteral : integerLiteral? n.text = some (Formula.number n).expr := by
    have hword : Word.ofInt? .int32 n.value = some n.word := dif_pos n.fits
    rw [integerLiteral?, n.int?_text]
    split <;> simp [hword, Formula.expr]
  exact takes_digits hinner n.toSignedDigits hliteral hstops

/-- A phrase that starts with a name. -/
theorem takes_word {name : String} (h : Takes (word inner name) scope m [⟨.identifier, name⟩] e m rest) :
    Takes (primaryStart inner) scope m [⟨.identifier, name⟩] e m rest := by
  refine Takes.look fun t ht => ?_
  have hlexeme : t.lexeme = ⟨.identifier, name⟩ := ht
  have hkind : t.kind = .identifier := congrArg Lexeme.kind hlexeme
  have htext : t.text = name := congrArg Lexeme.text hlexeme
  simp only [hkind, htext]
  exact h

theorem unaryOperator?_name {name : String} (hname : Text.fold name ≠ "not") {t : Token} {ls : List Lexeme}
    (ht : t.Shows (⟨.identifier, name⟩ :: ls)) : unaryOperator? t = none := by
  have hlexeme : t.lexeme = ⟨.identifier, name⟩ := ht
  have hkind : t.kind = .identifier := congrArg Lexeme.kind hlexeme
  have htext : t.text = name := congrArg Lexeme.text hlexeme
  have hword : t.isWord "not" = false := by
    rw [Token.isWord, htext, Bool.and_eq_false_iff]
    right
    rw [Text.sameName, beq_eq_false_iff_ne]
    intro heq
    exact hname (by rw [Text.fold, heq]; decide)
  simp [unaryOperator?, hkind, hword]

theorem takes_name (hinner : inner.Derived) {name : String} (hname : Text.fold name ≠ "not")
    (h : Takes (word inner name) scope m [⟨.identifier, name⟩] e m rest) (hstops : Stops 6 rest) :
    Takes (unary inner) scope m [⟨.identifier, name⟩] e m rest :=
  takes_unary_of_primary (takes_primary hinner (takes_word h) hstops) fun _ => unaryOperator?_name hname

theorem takes_truth (hinner : inner.Derived) (b : Bool) (hstops : Stops 6 rest) :
    Takes (unary inner) scope m (Formula.truth b).lexemes (Formula.truth b).expr m rest := by
  cases b with
  | true => exact takes_name hinner (by decide) (Takes.skip (takes_pure _)) hstops
  | false => exact takes_name hinner (by decide) (Takes.skip (takes_pure _)) hstops

end

end Grammar

/-! ### Formulas -/

/-- A scope in which the names of parameters stand for the parameters. -/
structure Scope.Declares (scope : Scope) (env : Environment) (params : List Param) : Prop where
  context : scope.context = env.context
  lookup {name : String} {t : Ty} {slot : Nat} (h : ⟨some name, t, slot⟩ ∈ params) :
    scope.symbols.lookup (Text.fold name) = some (.expr (.param t slot))

section

variable {scope : Scope} {env : Environment} {params : List Param} {inner : Level} {rest : List Lexeme}
  {m : Nat × Shapes} {name : String} {t : Ty} {slot : Nat}

theorem Environment.PlainName.fold_ne (hname : env.PlainName name) : ∀ w ∈ reservedWords, Text.fold name ≠ w := by
  rintro w hw rfl
  exact hname.notReserved hw

theorem takes_declared (hscope : scope.Declares env params) (hmem : ⟨some name, t, slot⟩ ∈ params)
    (hname : env.PlainName name) :
    Takes (word inner name) scope m [⟨.identifier, name⟩] (.param t slot) m rest := by
  have hnamed : Takes (named inner name) scope m [⟨.identifier, name⟩] (.param t slot) m rest := by
    intro s hs hm
    obtain ⟨s', hs', hlater⟩ := Takes.skip (takes_pure (Expr.param t slot)) s hs hm
    refine ⟨s', ?_, hlater⟩
    simp only [named, reads_bind, reads_read]
    refine ⟨scope, s, ⟨rfl, rfl⟩, ?_⟩
    rw [hscope.context, hname.notType]
    simp only [hscope.lookup hmem]
    exact hs'
  unfold word
  split
  case h_7 => exact hnamed
  all_goals
    rename_i hword
    exact absurd hword (hname.fold_ne _ (by decide))

theorem takes_var (hscope : scope.Declares env params) (hinner : inner.Derived)
    (hmem : ⟨some name, t, slot⟩ ∈ params) (hname : env.PlainName name) (hstops : Stops 6 rest) :
    Takes (unary inner) scope m [⟨.identifier, name⟩] (.param t slot) m rest :=
  takes_name hinner (hname.fold_ne _ (by decide)) (takes_declared hscope hmem hname) hstops

end

namespace Formula

/-- A formula is read back, whatever comes after it and does not continue it: at the level of its
precedence, and as the first operands of a longer chain if it is an operation. -/
structure Readable (scope : Scope) (f : Formula) : Prop where
  takes {n : Nat} {rest : List Lexeme} {m : Nat × Shapes} (hn : f.nesting ≤ n) (hstops : Stops f.precedence rest) :
    Takes (reader (level n) f.precedence) scope m f.lexemes f.expr m rest
  gathers {n : Nat} {rest : List Lexeme} {m : Nat × Shapes} {op : BinaryOp} {left right : Formula}
    (hf : f = binary op left right) (hn : f.nesting ≤ n) (hstops : Stops (op.precedence + 1) rest) :
    Gathers (reader (level n) (op.precedence + 1)) (operators op.precedence) scope m f.lexemes f.expr m rest

variable {scope : Scope} {f g : Formula} {m : Nat × Shapes}

theorem Readable.of_tight (hf : 6 ≤ f.precedence)
    (h : ∀ {n : Nat} {rest : List Lexeme} {m : Nat × Shapes}, f.nesting ≤ n → Stops 6 rest →
      Takes (Grammar.unary (level n)) scope m f.lexemes f.expr m rest) : Readable scope f where
  takes hn hstops := by
    rw [reader_eq_unary hf]
    exact h hn hstops.tight
  gathers {_ _ _ op _ _} hbinary _ _ := by
    have hop := op.precedence_bounds
    rw [hbinary, precedence] at hf
    omega

/-- A formula is an expression where one more phrase may be nested than stand inside it. -/
theorem Readable.expression (hf : Readable scope f) {n : Nat} {rest : List Lexeme} (hn : f.nesting < n)
    (hstops : Stops 0 rest) : Takes (level n).expression scope m f.lexemes f.expr m rest := by
  cases n with
  | zero => omega
  | succ n =>
      have htakes : Takes (reader (level n) f.precedence) scope m f.lexemes f.expr m rest :=
        hf.takes (Nat.le_of_lt_succ hn) (hstops.mono (Nat.zero_le _))
      exact takes_descend (level_derived n) htakes (Nat.zero_le _) hstops

/-- An operand is read at a level, in parentheses if it is looser. -/
theorem Readable.operand (hf : Readable scope f) {parens : Bool} {k n : Nat} {rest : List Lexeme} (hk : k ≤ 6)
    (hparens : parens = false → k ≤ f.precedence) (hn : f.nesting + parens.toNat ≤ n)
    (hstops : Stops k rest) :
    Takes (reader (level n) k) scope m (wrapped parens f.lexemes) f.expr m rest := by
  cases parens with
  | false =>
      have htakes : Takes (reader (level n) f.precedence) scope m f.lexemes f.expr m rest :=
        hf.takes hn (hstops.mono (hparens rfl))
      exact takes_descend (level_derived n) htakes (hparens rfl) hstops
  | true =>
      have hinside : Takes (level n).expression scope m f.lexemes f.expr m (closeParen :: rest) :=
        hf.expression hn (.of_first (Or.inl rfl))
      have hwrapped : Takes (reader (level n) 6) scope m (wrapped true f.lexemes) f.expr m rest :=
        takes_parens (level_derived n) hinside hstops.tight
      exact takes_descend (level_derived n) hwrapped hk hstops

/-- The left operand of an operator is the start of a chain: an operation of the same level as it is,
anything else as an operand. -/
theorem Readable.leftOperand (hf : Readable scope f) {op : BinaryOp} {n : Nat} {rest : List Lexeme}
    (hn : f.nesting + (decide (f.precedence < op.precedence)).toNat ≤ n)
    (hstops : Stops (op.precedence + 1) rest) :
    Gathers (reader (level n) (op.precedence + 1)) (operators op.precedence) scope m
      (wrapped (f.precedence < op.precedence) f.lexemes) f.expr m rest := by
  have hop := op.precedence_bounds
  by_cases hsame : f.precedence = op.precedence
  · rw [hsame] at hn ⊢
    cases f with
    | binary op' left right =>
        have hprecedence : op'.precedence = op.precedence := hsame
        have hstops' : Stops (op'.precedence + 1) rest := by rwa [hprecedence]
        have hgathers := hf.gathers (m := m) rfl (Nat.le_trans (Nat.le_add_right _ _) hn) hstops'
        rw [hprecedence] at hgathers
        simpa [wrapped] using hgathers
    | number | truth | var | unary | conditional =>
        simp only [precedence] at hsame
        omega
  · refine .of_takes (hf.operand (by omega) ?_ hn hstops)
    intro hparens
    have := of_decide_eq_false hparens
    omega

theorem Readable.binary {op : BinaryOp} (hf : Readable scope f) (hg : Readable scope g)
    (hrule : ∀ symbol, op.rule scope.catalog symbol f.expr g.expr = .ok (binary op f g).expr) :
    Readable scope (binary op f g) := by
  have hop := op.precedence_bounds
  have hgathers : ∀ {n : Nat} {rest : List Lexeme} {m : Nat × Shapes}, (Formula.binary op f g).nesting ≤ n →
      Stops (op.precedence + 1) rest → Gathers (reader (level n) (op.precedence + 1))
        (operators op.precedence) scope m (Formula.binary op f g).lexemes (Formula.binary op f g).expr m rest := by
    intro n rest m hn hstops
    rw [nesting, Nat.max_le] at hn
    have hright : Takes (reader (level n) (op.precedence + 1)) scope m
        (wrapped (g.precedence < op.precedence + 1) g.lexemes) g.expr m rest :=
      hg.operand (by omega) (fun hparens => Nat.le_of_not_lt (of_decide_eq_false hparens)) hn.2 hstops
    exact (hf.leftOperand hn.1 (.of_lexeme (Nat.lt_succ_self _))).next
      (fun t ht => ⟨operators_lexeme ht, takes_typed (hrule t.text)⟩) hright
  constructor
  · intro n rest m hn hstops
    exact (hgathers hn (hstops.mono (Nat.le_succ _))).takes (level_derived n) hop hstops
  · intro n rest m _ _ _ heq hn hstops
    cases heq
    exact hgathers hn hstops

/-- An operand under a sign does not start with digits, so the sign is not taken for part of a number. -/
theorem first_operand (hg : g.isNumber = false) (hprecedence : 6 ≤ g.precedence) (rest : List Lexeme) :
    first (g.lexemes ++ rest) ≠ .integerLiteral ∧ first (g.lexemes ++ rest) ≠ .realLiteral := by
  cases g with
  | number => cases hg
  | truth | var => simp [lexemes, first]
  | unary op => cases op <;> simp [lexemes, first, UnaryOp.lexeme]
  | binary op =>
      have hop := op.precedence_bounds
      rw [precedence] at hprecedence
      omega
  | conditional => cases hprecedence

theorem Readable.unary {op : UnaryOp} (hg : Readable scope g)
    (hrule : ∀ symbol, Typing.unary scope.catalog op symbol g.expr = .ok (unary op g).expr) :
    Readable scope (unary op g) := by
  refine .of_tight (Nat.le_refl 6) ?_
  intro n rest m hn hstops
  rw [nesting] at hn
  cases n with
  | zero => cases hn
  | succ n =>
      have hbare : (g.isNumber || decide (g.precedence < 6)) = false → g.isNumber = false ∧ 6 ≤ g.precedence := by
        intro hparens
        obtain ⟨hnumber, hprecedence⟩ := Bool.or_eq_false_iff.mp hparens
        exact ⟨hnumber, Nat.le_of_not_lt (of_decide_eq_false hprecedence)⟩
      refine takes_sign (hg.operand (Nat.le_refl 6) (fun h => (hbare h).2) (Nat.le_of_succ_le_succ hn) hstops)
        (fun _ => ?_) hrule
      cases hparens : g.isNumber || decide (g.precedence < 6) with
      | true => simp [wrapped, first, openParen]
      | false => exact first_operand (hbare hparens).1 (hbare hparens).2 rest

theorem Readable.conditional {test : Formula} (htest : Readable scope test) (hf : Readable scope f)
    (hg : Readable scope g)
    (hrule : Typing.conditional scope.catalog test.expr f.expr g.expr = .ok (conditional test f g).expr) :
    Readable scope (conditional test f g) := by
  refine ⟨?_, fun heq => by cases heq⟩
  intro n rest m hn hstops
  rw [nesting, Nat.max_le, Nat.succ_le_iff, Nat.max_lt] at hn
  have hquestion : Stops 1 (question :: (f.lexemes ++ colon :: g.lexemes) ++ rest) :=
    .of_question rfl Nat.one_pos
  have htest' : Takes (reader (level n) 1) scope m (wrapped (test.precedence < 1) test.lexemes) test.expr m
      (question :: (f.lexemes ++ colon :: g.lexemes) ++ rest) :=
    htest.operand (by decide) (fun hparens => Nat.le_of_not_lt (of_decide_eq_false hparens)) hn.1 hquestion
  exact takes_conditional htest' (hf.expression hn.2.1 (.of_first (Or.inr (Or.inl rfl))))
    (hg.expression hn.2.2 hstops) hrule

/-- Every well-typed formula is read back. -/
theorem HasType.readable {env : Environment} {params : List Param} (hscope : scope.Declares env params)
    {t : Ty} (h : HasType env params f t) : Readable scope f := by
  induction h with
  | number n => exact .of_tight (Nat.le_succ 6) fun _ hstops => takes_number (level_derived _) n hstops
  | truth b => exact .of_tight (Nat.le_succ 6) fun _ hstops => takes_truth (level_derived _) b hstops
  | var hmem hname _ =>
      exact .of_tight (Nat.le_succ 6) fun _ hstops => takes_var hscope (level_derived _) hmem hname hstops
  | negate hf ih => exact ih.unary (unary_eq (.negate hf) _)
  | not hf ih => exact ih.unary (unary_eq (.not hf) _)
  | arithmetic hop hf hg ihf ihg => exact ihf.binary ihg (rule_eq (.arithmetic hop hf hg) _)
  | relational hop hf hg ihf ihg => exact ihf.binary ihg (rule_eq (.relational hop hf hg) _)
  | equality hop hf hg ihf ihg => exact ihf.binary ihg (rule_eq (.equality hop hf hg) _)
  | logical hop hf hg ihf ihg => exact ihf.binary ihg (rule_eq (.logical hop hf hg) _)
  | conditional htest hyes hno ihtest ihyes ihno =>
      exact ihtest.conditional ihyes ihno (conditional_eq (.conditional htest hyes hno) _)

end Formula

/-! ### Whole texts -/

namespace Environment

variable {env : Environment} {params : List ParamDecl} {f : Formula} {t : Ty}

/-- Parameters with different names are all known in the scope of a text. -/
theorem exists_declares (env : Environment) (hdistinct : ((params.filterMap (·.name)).map Text.fold).Nodup) :
    ∃ symbols, Symbols.ofText (bindParams params) [] = .ok symbols ∧
      (env.scope (bindParams params) symbols).Declares env (bindParams params) := by
  have hkeys : ((((bindParams params).filterMap Symbols.binding?).map Symbols.folded).map Prod.fst).Nodup := by
    rwa [Symbols.binding?_keys]
  have hparams : Symbols.insertParams [] (bindParams params) = _ := Symbols.insertParams_eq hkeys
  refine ⟨((bindParams params).filterMap Symbols.binding?).map Symbols.folded, ?_, rfl, fun hmem => ?_⟩
  · rw [Symbols.ofText, hparams]
    rfl
  · exact Symbols.lookup_eq_some hkeys
      (List.mem_map.mpr ⟨(_, _), List.mem_filterMap.mpr ⟨_, hmem, rfl⟩, rfl⟩)

/-- A text that spells a well-typed formula compiles to its typed expression: the operators have the
structure of the formula and nothing is converted. -/
theorem compile_spelled_formula (hdistinct : ((params.filterMap (·.name)).map Text.fold).Nodup)
    (hf : f.HasType env (bindParams params) t) (hdepth : f.nesting < maxDepth) {text : String}
    (htext : Spells f.lexemes text.toList) {result : Option Ty} (hresult : ∀ r ∈ result, r = t)
    (shapes : Shapes) :
    (env.compile params result text []).exec shapes =
      (.ok ⟨bindParams params, f.expr, params.length⟩, shapes) := by
  obtain ⟨symbols, hsymbols, hscope⟩ := exists_declares env hdistinct
  obtain ⟨htokens, hstop⟩ := htext.scan hf.linked.whole hf.linked.apart 0
  have hends : Stops 0 [] := .of_first (Or.inr (Or.inr rfl))
  have hwhole : Takes (whole result) (env.scope (bindParams params) symbols)
      ((bindParams params).length, shapes) f.lexemes f.expr ((bindParams params).length, shapes) [] :=
    takes_whole ((hf.readable hscope).expression hdepth hends)
      fun r hr => hf.ty_expr.trans (hresult r hr).symm
  have hreading := reading_of_takes hsymbols htokens hstop hwhole
  rw [length_bindParams] at hreading
  exact Shaping.exec_map_eq_ok.mpr ⟨(f.expr, params.length), hreading, rfl⟩

/-- Parentheses and signs are told apart: a number under a sign, a negative number, and differences grouped
to the right. -/
theorem compile_spelled_formula_signs :
    (Environment.compile ⟨.empty, .empty⟩ [⟨some "x", .int32⟩, ⟨some "Ok", .boolean⟩] (some .int32)
      "!Ok&& x < - 3 ?-(5):x-(x -2)" []).exec .empty =
      (.ok ⟨[⟨some "x", .int32, 0⟩, ⟨some "Ok", .boolean, 1⟩],
        .conditional .int32
          (.binary .boolean .andAlso (.unary .boolean .not (.param .boolean 1))
            (.binary .boolean .lessThan (.param .int32 0)
              (.literal .int32 (.int .int32 ⟨-3, by decide⟩) "-3")))
          (.unary .int32 .negate (.literal .int32 (.int .int32 ⟨5, by decide⟩) "5"))
          (.binary .int32 .subtract (.param .int32 0)
            (.binary .int32 .subtract (.param .int32 0)
              (.literal .int32 (.int .int32 ⟨2, by decide⟩) "2"))), 2⟩, .empty) := by
  have hx : Environment.PlainName ⟨.empty, .empty⟩ "x" :=
    ⟨⟨_, _, rfl, by decide, List.all_eq_true.mp (by decide)⟩, by decide, by decide⟩
  have hok : Environment.PlainName ⟨.empty, .empty⟩ "Ok" :=
    ⟨⟨_, _, rfl, by decide, List.all_eq_true.mp (by decide)⟩, by decide, by decide⟩
  have htypex : Formula.HasType ⟨.empty, .empty⟩ (bindParams [⟨some "x", .int32⟩, ⟨some "Ok", .boolean⟩])
      (.var "x" .int32 0) .int32 := .var (.head _) hx (Or.inl rfl)
  have htypeok : Formula.HasType ⟨.empty, .empty⟩ (bindParams [⟨some "x", .int32⟩, ⟨some "Ok", .boolean⟩])
      (.var "Ok" .boolean 1) .boolean := .var (.tail _ (.head _)) hok (Or.inr rfl)
  have htight : ∀ {l : Lexeme} {ls : List Lexeme} {cs : List Char}, Spells ls cs →
      Spells (l :: ls) (l.text.toList ++ cs) := fun h => @Spells.cons [] _ _ _ (by simp) h
  have hspaced : ∀ {l : Lexeme} {ls : List Lexeme} {cs : List Char}, Spells ls cs →
      Spells (l :: ls) (' ' :: (l.text.toList ++ cs)) :=
    fun h => @Spells.cons [' '] _ _ _ (List.all_eq_true.mp (by decide)) h
  have htype : Formula.HasType ⟨.empty, .empty⟩ (bindParams [⟨some "x", .int32⟩, ⟨some "Ok", .boolean⟩])
      (.conditional
        (.binary .andAlso (.unary .not (.var "Ok" .boolean 1))
          (.binary .lessThan (.var "x" .int32 0)
            (.number ⟨⟨true, ['3'], by decide, by simp⟩, by decide⟩)))
        (.unary .negate (.number ⟨⟨false, ['5'], by decide, by simp⟩, by decide⟩))
        (.binary .subtract (.var "x" .int32 0)
          (.binary .subtract (.var "x" .int32 0)
            (.number ⟨⟨false, ['2'], by decide, by simp⟩, by decide⟩)))) .int32 :=
    .conditional (.logical rfl (.not htypeok) (.relational (by decide) htypex (.number _)))
      (.negate (.number _)) (.arithmetic rfl htypex (.arithmetic rfl htypex (.number _)))
  refine compile_spelled_formula (by decide) htype (by decide) ?_ (fun r hr => (Option.some.inj hr).symm) .empty
  -- the text, lexeme by lexeme
  exact htight (htight (htight (hspaced (hspaced (hspaced (hspaced (hspaced (htight (htight (htight (htight
    (htight (htight (htight (htight (htight (hspaced (htight (htight (.nil (by simp)))))))))))))))))))))

end Environment

end RowQuery
