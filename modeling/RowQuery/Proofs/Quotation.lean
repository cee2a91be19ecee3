import RowQuery.Proofs.Embedding
import RowQuery.Proofs.Failing
import RowQuery.Proofs.Soundness

/-!
Quoted texts. A text is quoted by doubling every delimiter in it and setting it between two delimiters. The scan
takes up to the first delimiter that stands alone; the grammar then drops the outer delimiters and joins the
doubled ones from the left. Both passes undo the quoting: a quoted text is one token that denotes the text, and
every token of a literal is a quoted text. Between single quotes only a text of one character denotes something.
-/

namespace RowQuery

open Parse Grammar Lexeme

namespace Lexeme

/-- Characters with every delimiter doubled. -/
def doubled (quote : Char) (cs : List Char) : List Char :=
  cs.flatMap fun c => if c = quote then [quote, quote] else [c]

/-- A text between delimiters, with every delimiter in it doubled. -/
def quoted (quote : Char) (s : String) : String := String.ofList (quote :: (doubled quote s.toList ++ [quote]))

variable {quote : Char}

theorem doubled_cons_self (quote : Char) (cs : List Char) :
    doubled quote (quote :: cs) = quote :: quote :: doubled quote cs := by
  simp [doubled]

theorem doubled_cons_of_ne {c : Char} (h : c ≠ quote) (cs : List Char) :
    doubled quote (c :: cs) = c :: doubled quote cs := by
  simp [doubled, h]

/-! ### Tokens -/

theorem quotedLength?_doubled (quote : Char) (cs : List Char) :
    quotedLength? quote (doubled quote cs ++ [quote]) = some ((doubled quote cs ++ [quote]).length) := by
  induction cs with
  | nil => simp [doubled, quotedLength?]
  | cons c cs ih =>
      by_cases hc : c = quote
      · subst hc
        simp [doubled_cons_self, quotedLength?, ih]
      · rw [doubled_cons_of_ne hc, List.cons_append]
        unfold quotedLength?
        rw [if_neg hc, ih]
        rfl

/-- What a literal has up to its end is doubled and then a delimiter. -/
theorem exists_doubled {cs : List Char} {n : Nat} (h : quotedLength? quote cs = some n) :
    ∃ content, cs.take n = doubled quote content ++ [quote] := by
  fun_induction quotedLength? quote cs generalizing n with
  | case1 => cases h
  | case2 =>
      cases h
      exact ⟨[], rfl⟩
  | case3 ds ih =>
      obtain ⟨m, hm, rfl⟩ := Option.map_eq_some_iff.mp h
      obtain ⟨content, hcontent⟩ := ih hm
      refine ⟨quote :: content, ?_⟩
      rw [doubled_cons_self, List.take_succ_cons, List.take_succ_cons, hcontent]
      rfl
  | case4 d ds hd =>
      cases h
      exact ⟨[], rfl⟩
  | case5 c cs hc ih =>
      obtain ⟨m, hm, rfl⟩ := Option.map_eq_some_iff.mp h
      obtain ⟨content, hcontent⟩ := ih hm
      refine ⟨c :: content, ?_⟩
      rw [doubled_cons_of_ne hc, List.take_succ_cons, hcontent]
      rfl

/-- A delimiter starts a literal. -/
theorem read_quote (hquote : quote = '"' ∨ quote = '\'') {cs : List Char} {n : Nat}
    (h : quotedLength? quote cs = some n) : read quote cs = (.ok .stringLiteral, n) := by
  rcases hquote with rfl | rfl <;> simp [read, h]

theorem quote_of_read {c : Char} {cs : List Char} {n : Nat} (h : read c cs = (.ok .stringLiteral, n)) :
    (c = '"' ∨ c = '\'') ∧ quotedLength? c cs = some n := by
  have heither : ∀ {second both alone}, both ≠ .stringLiteral → alone ≠ .stringLiteral →
      either second both alone cs ≠ (.ok .stringLiteral, n) := by
    intro second both alone hboth halone h
    unfold either at h
    split at h
    · split at h <;> cases h <;> contradiction
    · cases h
      contradiction
  unfold read at h
  split at h
  case h_1 | h_3 | h_14 | h_15 | h_19 => exact absurd h (heither (by decide) (by decide))
  case h_13 => split at h <;> cases h
  case h_20 =>
    split at h
    · rename_i hquote
      split at h
      · rename_i hlength
        cases h
        exact ⟨hquote, hlength⟩
      · cases h
    · split at h
      · cases h
      · split at h
        · rcases kind_number h with hkind | hkind <;> cases hkind
        · cases h
  all_goals cases h

theorem whole_quoted (hquote : quote = '"' ∨ quote = '\'') (s : String) :
    Whole ⟨.stringLiteral, quoted quote s⟩ := by
  refine ⟨quote, doubled quote s.toList ++ [quote], String.toList_ofList, ?_, ?_⟩
  · rcases hquote with rfl | rfl <;> decide
  · exact read_quote hquote (quotedLength?_doubled quote s.toList)

end Lexeme

/-- Every token of a literal is a quoted text. -/
theorem Token.exists_quoted {text : String} {t : Token} (ht : t ∈ (scan text).tokens)
    (hkind : t.kind = .stringLiteral) :
    ∃ quote s, (quote = '"' ∨ quote = '\'') ∧ t.text = quoted quote s := by
  obtain ⟨c, cs, htext, -, hread⟩ := Cursor.whole_lexeme _ t ht
  rw [show t.lexeme.kind = .stringLiteral from hkind] at hread
  obtain ⟨hquote, hlength⟩ := quote_of_read hread
  obtain ⟨content, hcontent⟩ := exists_doubled hlength
  rw [List.take_length] at hcontent
  refine ⟨c, String.ofList content, hquote, String.toList_inj.mp ?_⟩
  rw [quoted, String.toList_ofList, String.toList_ofList, ← hcontent]
  exact htext

/-- A quoted text is one token. -/
theorem scan_quoted {quote : Char} (hquote : quote = '"' ∨ quote = '\'') (s : String) :
    scan (quoted quote s) = ⟨[⟨.stringLiteral, quoted quote s, 0⟩], .finished (quoted quote s).length⟩ :=
  (whole_quoted hquote s).scan

/-! ### Literals -/

namespace Grammar

variable {quote : Char} {scope : Scope} {inner : Level}

theorem undoubled_cons_of_ne {c : Char} (h : c ≠ quote) (cs : List Char) :
    undoubled quote (c :: cs) = c :: undoubled quote cs := by
  cases cs with
  | nil => simp [undoubled]
  | cons d cs => rw [undoubled, if_neg fun hboth => h hboth.1]

theorem undoubled_doubled (quote : Char) (cs : List Char) : undoubled quote (doubled quote cs) = cs := by
  induction cs with
  | nil => rfl
  | cons c cs ih =>
      by_cases hc : c = quote
      · subst hc
        rw [doubled_cons_self, undoubled, if_pos ⟨rfl, rfl⟩, ih]
      · rw [doubled_cons_of_ne hc, undoubled_cons_of_ne hc, ih]

theorem quotedLiteral?_string (s : String) :
    quotedLiteral? (quoted '"' s) = some (.literal .string (.string s) s) := by
  simp [quotedLiteral?, quoted, undoubled_doubled]

theorem quotedLiteral?_char (c : Char) :
    quotedLiteral? (quoted '\'' (.singleton c)) = some (.literal .char (.char c) (.singleton c)) := by
  simp [quotedLiteral?, quoted, undoubled_doubled]

theorem quotedLiteral?_of_length {s : String} (h : s.length ≠ 1) : quotedLiteral? (quoted '\'' s) = none := by
  have hone : ∀ c, s.toList ≠ [c] := by
    intro c hc
    rw [← String.length_toList, hc] at h
    exact h rfl
  -- by `hone` only the last case for the characters is left
  simp [quotedLiteral?, quoted, undoubled_doubled]

theorem takes_quoted {text : String} {e : Expr} {m : Nat × Shapes} {rest : List Lexeme}
    (h : quotedLiteral? text = some e) : Takes (primaryStart inner) scope m [⟨.stringLiteral, text⟩] e m rest := by
  refine Takes.look fun t ht => ?_
  have hlexeme : t.lexeme = ⟨.stringLiteral, text⟩ := ht
  have hkind : t.kind = .stringLiteral := congrArg Lexeme.kind hlexeme
  have htext : t.text = text := congrArg Lexeme.text hlexeme
  simp only [hkind, htext, h, literal]
  exact (takes_pure e).skip

theorem fails_quoted {s : Reading} (hkind : s.token.kind = .stringLiteral) (h : quotedLiteral? s.token.text = none) :
    Fails (primaryStart inner) scope s ⟨.invalidCharacterLiteral, s.token.pos⟩ := by
  refine (reads_token.mpr ⟨rfl, rfl⟩).fails ?_
  simp only [hkind, h, literal]
  exact fails_fail .invalidCharacterLiteral

end Grammar

/-! ### Whole texts -/

namespace Environment

variable {env : Environment} {decls : List ParamDecl} {args : List Argument} {symbols : Symbols} {quote : Char}
  {s : String}

theorem compile_quoted (hsymbols : Symbols.ofText (bindParams decls) args = .ok symbols)
    (hquote : quote = '"' ∨ quote = '\'') {e : Expr} (h : quotedLiteral? (quoted quote s) = some e)
    (shapes : Shapes) :
    ((env.compile decls none (quoted quote s) args).exec shapes).1 = .ok ⟨bindParams decls, e, decls.length⟩ := by
  have hinner := level_derived (maxDepth - 1)
  have hoperand : Takes (reader (level (maxDepth - 1)) 6) (env.scope (bindParams decls) symbols)
      (decls.length, .empty) [⟨.stringLiteral, quoted quote s⟩] e (decls.length, .empty) [] := by
    refine takes_unary_of_primary (takes_primary hinner (takes_quoted h) (.nil 6)) fun t ht => ?_
    have hkind : t.kind = .stringLiteral := kind_of_shows ht
    simp [unaryOperator?, Token.isWord, hkind]
  have hexpression := takes_descend hinner hoperand (Nat.zero_le 6) (.nil 0)
  exact (compiles_of_takes hsymbols (.single (whole_quoted hquote s)) hexpression (by simp)).compile_eq_ok shapes

theorem compile_quoted_of_none (hsymbols : Symbols.ofText (bindParams decls) args = .ok symbols)
    (hquote : quote = '"' ∨ quote = '\'') (h : quotedLiteral? (quoted quote s) = none) (shapes : Shapes) :
    ((env.compile decls none (quoted quote s) args).exec shapes).1 = .error ⟨.invalidCharacterLiteral, 0⟩ := by
  let t : Token := ⟨.stringLiteral, quoted quote s, 0⟩
  have htokens : (start (bindParams decls) (quoted quote s) shapes).rest = [t] := by
    rw [start, scan_quoted hquote]
  have hadvance : Reads advance (env.scope (bindParams decls) symbols) _ () _ :=
    reads_advance_iff.mpr (Or.inl ⟨t, [], htokens, rfl⟩)
  have hprimary : Fails (primary (level (maxDepth - 1))) (env.scope (bindParams decls) symbols) _ ⟨_, 0⟩ :=
    (fails_quoted (s := { start (bindParams decls) (quoted quote s) shapes with token := t, rest := [] }) rfl h).bind _
  have hoperand := fails_unary hprimary (by simp [unaryOperator?, Token.isWord, t])
  exact compile_of_fails none hsymbols hadvance (fails_reader hoperand 0)

/-- A quoted text is one token up to the end. Between double quotes it compiles to the string that was quoted, and
between single quotes to the character if there is exactly one, and not at all otherwise. The other way round, each
token of a literal is a quoted text: it is read as the string or the character that it quotes, or refused. -/
theorem quoted_roundTrip (hsymbols : Symbols.ofText (bindParams decls) args = .ok symbols) (shapes : Shapes) :
    let compiled (text : String) := ((env.compile decls none text args).exec shapes).1
    (∀ quote s, quote = '"' ∨ quote = '\'' → tokenize (quoted quote s) =
      .ok [⟨.stringLiteral, quoted quote s, 0⟩, ⟨.done, "", (quoted quote s).length⟩]) ∧
    (∀ s, compiled (quoted '"' s) = .ok ⟨bindParams decls, .literal .string (.string s) s, decls.length⟩) ∧
    (∀ c, compiled (quoted '\'' (.singleton c)) =
      .ok ⟨bindParams decls, .literal .char (.char c) (.singleton c), decls.length⟩) ∧
    (∀ s : String, s.length ≠ 1 → compiled (quoted '\'' s) = .error ⟨.invalidCharacterLiteral, 0⟩) ∧
    ∀ text, ∀ t ∈ (scan text).tokens, t.kind = .stringLiteral → ∃ quote s, t.text = quoted quote s ∧
      ((quote = '"' ∧ quotedLiteral? t.text = some (.literal .string (.string s) s)) ∨
        (quote = '\'' ∧ ∃ c, s = .singleton c ∧ quotedLiteral? t.text = some (.literal .char (.char c) s)) ∨
        (quote = '\'' ∧ s.length ≠ 1 ∧ ∀ inner scope (r : Reading), r.token = t →
          Fails (primaryStart inner) scope r ⟨.invalidCharacterLiteral, t.pos⟩)) := by
  intro compiled
  refine ⟨fun quote s hquote => ?_, fun s => ?_, fun c => ?_, fun s hs => ?_, fun text t ht hkind => ?_⟩
  · rw [tokenize, scan_quoted hquote]
    rfl
  · exact compile_quoted hsymbols (Or.inl rfl) (quotedLiteral?_string s) shapes
  · exact compile_quoted hsymbols (Or.inr rfl) (quotedLiteral?_char c) shapes
  · exact compile_quoted_of_none hsymbols (Or.inr rfl) (quotedLiteral?_of_length hs) shapes
  · obtain ⟨quote, s, rfl | rfl, htext⟩ := Token.exists_quoted ht hkind
    · exact ⟨'"', s, htext, Or.inl ⟨rfl, by rw [htext, quotedLiteral?_string]⟩⟩
    · refine ⟨'\'', s, htext, Or.inr ?_⟩
      by_cases hlength : s.length = 1
      · obtain ⟨c, hc⟩ := List.length_eq_one_iff.mp (String.length_toList.trans hlength)
        have hs : s = .singleton c := by rw [← String.ofList_toList (s := s), hc, String.singleton_eq_ofList]
        exact Or.inl ⟨rfl, c, hs, by rw [htext, hs, quotedLiteral?_char]⟩
      · refine Or.inr ⟨rfl, hlength, fun inner scope r hr => ?_⟩
        subst hr
        exact fails_quoted hkind (by rw [htext, quotedLiteral?_of_length hlength])

/-- A string with quotes at its end, and next to it the character of a single quote. -/
theorem quoted_roundTrip_quotes :
    let decls : List ParamDecl := [⟨none, .cls .cell⟩]
    let args : List Argument := [.value (.int32 1)]
    ∃ symbols, Symbols.ofText (bindParams decls) args = .ok symbols ∧
      ((Environment.cells.compile decls none "\"say \"\"hi\"\"\"" args).exec .empty).1 =
        .ok ⟨bindParams decls, .literal .string (.string "say \"hi\"") "say \"hi\"", 1⟩ ∧
      ⟨.stringLiteral, "''''", 15⟩ ∈ (scan "\"say \"\"hi\"\"\" + ''''").tokens ∧
      ∃ quote s, "''''" = quoted quote s := by
  intro decls args
  obtain ⟨symbols, hsymbols⟩ := toOption_isSome.mp
    (show (Symbols.ofText (bindParams decls) args).toOption.isSome by decide +kernel)
  obtain ⟨-, hstring, -, -, htokens⟩ := @quoted_roundTrip .cells _ _ _ hsymbols .empty
  have ht : (⟨.stringLiteral, "''''", 15⟩ : Token) ∈ (scan "\"say \"\"hi\"\"\" + ''''").tokens := by decide +kernel
  obtain ⟨quote, s, htext, -⟩ := htokens _ _ ht rfl
  have hquoted : quoted '"' "say \"hi\"" = "\"say \"\"hi\"\"\"" := by decide +kernel
  exact ⟨symbols, hsymbols, hquoted ▸ hstring "say \"hi\"", ht, quote, s, htext⟩

end Environment

end RowQuery
