import RowQuery.Proofs.TextVariants

/-!
The tokens of a text and the text between them. A text that is scanned without fault is cut into tokens with blank space
before, between and after them, so nothing of it is lost. No token depends on what follows it, as long as that does
not continue it: each one is scanned from its own text again, and all of them from their texts with a space between.
-/

namespace RowQuery

open Lexeme

/-! ### Tokens and gaps -/

/-- A text from a position on is cut into tokens, the empty one at its end included, with blank space between them. -/
inductive Tiles : Nat → List Char → List Token → Prop
  | done {pos : Nat} {gap : List Char} (h : ∀ c ∈ gap, Text.isBlank c) :
      Tiles pos gap [Token.mk .done "" (pos + gap.length)]
  | token {pos : Nat} {gap cs : List Char} {t : Token} {ts : List Token} (h : ∀ c ∈ gap, Text.isBlank c)
      (hpos : t.pos = pos + gap.length) (hkind : t.kind ≠ .done) (htext : t.text ≠ "")
      (later : Tiles (t.pos + t.text.length) cs ts) : Tiles pos (gap ++ (t.text.toList ++ cs)) (t :: ts)

/-- The characters of a text before each of the tokens from a position on, back to the end of the one before it. -/
def gaps (cs : List Char) : Nat → List Token → List (List Char)
  | _, [] => []
  | pos, t :: ts => cs.extract pos t.pos :: gaps cs (t.pos + t.text.length) ts

/-- A scan without fault cuts the text. -/
theorem Cursor.tiles : ∀ (k : Cursor) (final : Nat), (scan k).stop = .finished final →
    Tiles k.pos k.rest ((scan k).tokens ++ [Token.mk .done "" final]) := by
  refine scan_induction fun k ih final hstop => ?_
  rcases hskip : k.skipBlank with ⟨pos, _ | ⟨c, cs⟩⟩
  · obtain ⟨gap, hgap, hrest, hpos, -⟩ := k.exists_blank
    rw [hskip, List.append_nil] at hrest
    rw [scan_of_nil (by rw [hskip]), hpos] at hstop ⊢
    obtain rfl : k.pos + gap.length = final := Stop.finished.inj hstop
    rw [hrest]
    exact .done hgap
  · rcases hread : Lexeme.read c cs with ⟨⟨fault, offset⟩ | kind, n⟩
    · rw [scan_eq, hskip] at hstop
      simp [hread] at hstop
    · obtain ⟨gap, hgap, -, hrest, hpos, hlength⟩ := exists_lexeme hskip hread
      rw [scan_of_cons hskip hread] at hstop ⊢
      let t : Token := ⟨kind, String.ofList (c :: cs.take n), pos⟩
      have htext : t.text.toList = c :: cs.take n := String.toList_ofList
      have htoken : t.text.length = n + 1 := String.length_ofList.trans hlength
      have hne : t.text ≠ "" := by
        intro hempty
        rw [hempty] at htoken
        cases htoken
      have hlater : Tiles (t.pos + t.text.length) (cs.drop n)
          ((scan ⟨pos + n + 1, cs.drop n⟩).tokens ++ [Token.mk .done "" final]) := by
        rw [htoken]
        exact ih pos c cs kind n hskip hread final hstop
      have htiles := Tiles.token hgap hpos (Lexeme.read_ok hread).2 hne hlater
      rw [htext, ← List.append_assoc, ← hrest] at htiles
      exact htiles

namespace Tiles

variable {pos : Nat} {cs : List Char} {ts : List Token}

/-- The empty token is the last one, at the end of the text, and the only one. -/
theorem exists_tokens (h : Tiles pos cs ts) : ∃ tokens, ts = tokens ++ [Token.mk .done "" (pos + cs.length)] ∧
    ∀ t ∈ tokens, t.kind ≠ .done ∧ t.text ≠ "" := by
  induction h with
  | done h => exact ⟨[], rfl, by simp⟩
  | @token pos gap cs t ts h hpos hkind htext later ih =>
      obtain ⟨tokens, rfl, htokens⟩ := ih
      refine ⟨t :: tokens, ?_, List.forall_mem_cons.mpr ⟨⟨hkind, htext⟩, htokens⟩⟩
      rw [hpos, List.length_append, List.length_append, String.length_toList, List.cons_append, Nat.add_assoc,
        Nat.add_assoc]

theorem pos_le (h : Tiles pos cs ts) : ∀ t ∈ ts, pos ≤ t.pos := by
  induction h with
  | done h => simp
  | token h hpos hkind htext later ih =>
      refine List.forall_mem_cons.mpr ⟨by omega, fun u hu => ?_⟩
      have := ih u hu
      omega

theorem pairwise (h : Tiles pos cs ts) : ts.Pairwise fun t u => t.pos < u.pos := by
  induction h with
  | done h => exact List.pairwise_singleton _ _
  | @token pos gap cs t ts h hpos hkind htext later ih =>
      refine List.pairwise_cons.mpr ⟨fun u hu => ?_, ih⟩
      have hle := later.pos_le u hu
      have hlength : t.text.length ≠ 0 := fun hzero => htext (String.length_eq_zero_iff.mp hzero)
      omega

/-- The gaps are blank, and each one with the token after it makes up the text. -/
theorem gaps_spec (h : Tiles pos cs ts) {before : List Char} (hbefore : before.length = pos) :
    (∀ gap ∈ gaps (before ++ cs) pos ts, ∀ c ∈ gap, Text.isBlank c) ∧
      cs = (List.zipWith (fun gap t => gap ++ t.text.toList) (gaps (before ++ cs) pos ts) ts).flatten := by
  have hextract : ∀ before gap rest : List Char,
      (before ++ (gap ++ rest)).extract before.length (before.length + gap.length) = gap := by
    intro before gap rest
    rw [List.extract, List.drop_left, Nat.add_sub_cancel_left, List.take_left]
  induction h generalizing before with
  | @done pos gap h =>
      have hgap := hextract before gap []
      rw [List.append_nil] at hgap
      subst hbefore
      simp only [gaps, hgap]
      exact ⟨by simpa using h, by simp⟩
  | @token pos gap cs t ts h hpos hkind htext later ih =>
      subst hbefore
      have hgap := hextract before gap (t.text.toList ++ cs)
      -- positions count from the start of the whole text, so what lies before grows by the gap and the token
      have hlength : (before ++ gap ++ t.text.toList).length = t.pos + t.text.length := by
        rw [List.length_append, List.length_append, String.length_toList, hpos]
      obtain ⟨hblank, hlater⟩ := ih hlength
      have hassoc : before ++ gap ++ t.text.toList ++ cs = before ++ (gap ++ (t.text.toList ++ cs)) := by
        simp only [List.append_assoc]
      rw [hassoc] at hblank hlater
      rw [gaps, hpos, hgap, ← hpos]
      refine ⟨List.forall_mem_cons.mpr ⟨h, hblank⟩, ?_⟩
      rw [List.zipWith_cons_cons, List.flatten_cons, ← hlater, List.append_assoc]

end Tiles

/-- Tokens lose nothing of a text. Only the last one is empty, and stands at the end; the others are the characters
of the text at their places, one after the other, and all that lies before, between and after them is blank. -/
theorem tokenize_lossless {text : String} {ts : List Token} (h : tokenize text = .ok ts) :
    (∃ tokens, ts = tokens ++ [Token.mk .done "" text.length] ∧ ∀ t ∈ tokens, t.kind ≠ .done ∧ t.text ≠ "") ∧
    (∀ t ∈ ts, t.text.toList = text.toList.extract t.pos (t.pos + t.text.length)) ∧
    ts.Pairwise (fun t u => t.pos < u.pos) ∧
    (∀ gap ∈ gaps text.toList 0 ts, ∀ c ∈ gap, Text.isBlank c) ∧
    text.toList = (List.zipWith (fun gap t => gap ++ t.text.toList) (gaps text.toList 0 ts) ts).flatten := by
  obtain ⟨final, hstop, rfl⟩ := tokenize_eq_ok.mp h
  have htiles : Tiles 0 text.toList _ := Cursor.tiles ⟨0, text.toList⟩ final hstop
  obtain ⟨tokens, htokens, hproper⟩ := htiles.exists_tokens
  rw [Nat.zero_add, String.length_toList] at htokens
  refine ⟨⟨tokens, htokens, hproper⟩, fun t ht => ?_, htiles.pairwise, htiles.gaps_spec (show [].length = 0 from rfl)⟩
  rw [List.extract, Nat.add_sub_cancel_left]
  rcases List.mem_append.mp ht with ht | ht
  · exact (Cursor.text_eq_take ⟨0, text.toList⟩ t ht).2.symm
  · rw [List.mem_singleton.mp ht]
    rfl

theorem tokenize_lossless_quoted :
    let text := " a<='x y' "
    let ts : List Token :=
      [⟨.identifier, "a", 1⟩, ⟨.lessThanEqual, "<=", 2⟩, ⟨.stringLiteral, "'x y'", 4⟩, ⟨.done, "", 10⟩]
    tokenize text = .ok ts ∧ gaps text.toList 0 ts = [[' '], [], [], [' ']] ∧
      text.toList = (List.zipWith (fun gap t => gap ++ t.text.toList) (gaps text.toList 0 ts) ts).flatten := by
  intro text ts
  have htokens : tokenize text = .ok ts := toOption_eq_some.mp (by decide +kernel)
  exact ⟨htokens, by decide, (tokenize_lossless htokens).2.2.2.2⟩

/-! ### Tokens from their own texts -/

/-- Lexemes with a space between them are scanned into them. -/
theorem Scans.spaced {ls : List Lexeme} (h : ∀ l ∈ ls, l.Whole) :
    Scans (" ".intercalate (ls.map (·.text))).toList ls := by
  rw [String.toList_intercalate, List.map_map]
  induction ls with
  | nil => exact .of_spells (.nil (by simp)) (by simp) .nil
  | cons l ls ih =>
      obtain ⟨hl, hlater⟩ := List.forall_mem_cons.mp h
      cases ls with
      | nil => simpa using Scans.single hl
      | cons m ls =>
          have hblank : Text.isBlank ' ' := by decide
          have hnext := (ih hlater).after_blank hblank
          have hends : ∀ cs, Ends l.kind (' ' :: cs) := by
            rintro cs c ⟨⟩
            exact continues_blank l.kind hblank
          simpa using hnext.cons hl (hends _)

/-- The texts of the tokens of a text, with a space between them, have the same tokens up to their places; and the text
of each token has that token only. -/
theorem tokenize_rejoined {text : String} {ts : List Token} (h : tokenize text = .ok ts) :
    (∃ us, tokenize (" ".intercalate ((ts.filter (·.kind ≠ .done)).map (·.text))) = .ok us ∧
      us.map Token.lexeme = ts.map Token.lexeme) ∧
    ∀ t ∈ ts, t.kind ≠ .done → tokenize t.text = .ok [⟨t.kind, t.text, 0⟩, ⟨.done, "", t.text.length⟩] := by
  obtain ⟨final, hstop, rfl⟩ := tokenize_eq_ok.mp h
  have hwhole : ∀ t ∈ (scan text).tokens, t.lexeme.Whole := Cursor.whole_lexeme ⟨0, text.toList⟩
  have hproper : ∀ t ∈ (scan text).tokens, t.kind ≠ .done := Cursor.scan_tokens_proper ⟨0, text.toList⟩
  have hfilter : ((scan text).tokens ++ [Token.mk .done "" final]).filter (·.kind ≠ .done) = (scan text).tokens := by
    rw [List.filter_append, List.filter_eq_self.mpr (by simpa using hproper)]
    simp
  refine ⟨?_, fun t ht hkind => ?_⟩
  · rw [hfilter]
    have hscans : Scans _ ((scan text).tokens.map Token.lexeme) :=
      .spaced (List.forall_mem_map.mpr hwhole)
    rw [List.map_map] at hscans
    obtain ⟨hlexemes, final', hstop'⟩ := hscans 0
    refine ⟨_, tokenize_eq_ok.mpr ⟨final', hstop', rfl⟩, ?_⟩
    rw [List.map_append, List.map_append, ← hlexemes]
    rfl
  · have ht : t ∈ (scan text).tokens := by
      rw [← hfilter]
      exact List.mem_filter.mpr ⟨ht, by simpa using hkind⟩
    have hscan : scan t.text = _ := (hwhole t ht).scan
    rw [tokenize, hscan]
    rfl

/-- Two signs and a number that is next to a name. -/
theorem tokenize_rejoined_signs :
    let ts : List Token := [⟨.identifier, "a", 0⟩, ⟨.lessThanEqual, "<=", 1⟩, ⟨.minus, "-", 3⟩,
      ⟨.realLiteral, "1.5f", 4⟩, ⟨.identifier, "g", 8⟩, ⟨.done, "", 9⟩]
    tokenize "a<=-1.5fg" = .ok ts ∧
      (∃ us, tokenize "a <= - 1.5f g" = .ok us ∧ us.map Token.lexeme = ts.map Token.lexeme) ∧
      tokenize "1.5f" = .ok [⟨.realLiteral, "1.5f", 0⟩, ⟨.done, "", 4⟩] := by
  intro ts
  have htokens : tokenize "a<=-1.5fg" = .ok ts := toOption_eq_some.mp (by decide +kernel)
  obtain ⟨hjoined, hsingle⟩ := tokenize_rejoined htokens
  exact ⟨htokens, hjoined, hsingle ⟨.realLiteral, "1.5f", 4⟩ (by decide) (by decide)⟩

end RowQuery
