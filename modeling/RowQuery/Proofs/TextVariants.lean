import RowQuery.Proofs.Embedding
import RowQuery.Proofs.Respelling

/-!
Texts that mean the same. Blank space between the tokens of a text may be added, and the letters of its names
may be written in either case: the tokens stay alike, so what is compiled stays the same. The scan looks one
character past a lexeme, which blank space does not change, and every class of characters that it asks for
takes both cases of a letter or neither.
-/

namespace RowQuery

open Lexeme

/-- The tokens of a text are those of its scan and an empty one. -/
theorem tokenize_eq_ok {text : String} {ts : List Token} :
    tokenize text = .ok ts ↔
      ∃ pos, (scan text).stop = .finished pos ∧ ts = (scan text).tokens ++ [⟨.done, "", pos⟩] := by
  rcases hstop : (scan text).stop with pos | e
  · simp only [tokenize, hstop, Except.ok.injEq, Stop.finished.injEq, exists_eq_left']
    exact eq_comm
  · simp [tokenize, hstop]

/-! ### Blank space between tokens -/

namespace Scans

variable {blank cs : List Char} {ls : List Lexeme}

theorem of_cursor (k : Cursor) (hstop : ∃ final, (Cursor.scan k).stop = .finished final) :
    Scans k.rest ((Cursor.scan k).tokens.map Token.lexeme) := by
  intro pos
  obtain ⟨hlexemes, hfinished⟩ := k.scan_lexemes pos
  exact ⟨hlexemes, hfinished hstop⟩

/-- Blank space before a text does not matter. -/
theorem blank_append_iff (hblank : ∀ c ∈ blank, Text.isBlank c) : Scans (blank ++ cs) ls ↔ Scans cs ls := by
  have hscan : ∀ pos, Cursor.scan ⟨pos, blank ++ cs⟩ = Cursor.scan ⟨pos + blank.length, cs⟩ := by
    intro pos
    rw [Cursor.scan_eq, Cursor.scan_eq, Cursor.skipBlank_of_blank hblank]
  constructor
  · intro h pos
    obtain ⟨hlexemes, hstop⟩ := h 0
    rw [hscan] at hlexemes hstop
    obtain ⟨hsame, hfinished⟩ := Cursor.scan_lexemes ⟨0 + blank.length, cs⟩ pos
    exact ⟨hsame.trans hlexemes, hfinished hstop⟩
  · intro h pos
    rw [hscan]
    exact h _

/-- A lexeme before a text, read as far as it goes. -/
theorem of_read {c : Char} {next : List Char} {kind : TokenKind} (hc : Text.isBlank c = false)
    (hread : Lexeme.read c (cs ++ next) = (.ok kind, cs.length)) (h : Scans next ls) :
    Scans (c :: cs ++ next) (⟨kind, String.ofList (c :: cs)⟩ :: ls) := by
  intro pos
  have hskip : Cursor.skipBlank ⟨pos, [] ++ c :: (cs ++ next)⟩ = _ := Cursor.skipBlank_append (by simp) hc pos
  have hscan := Cursor.scan_of_cons hskip hread
  rw [List.take_left, List.drop_left] at hscan
  obtain ⟨hlexemes, hstop⟩ := h (pos + [].length + cs.length + 1)
  rw [List.nil_append] at hscan
  rw [List.cons_append, hscan]
  refine ⟨?_, hstop⟩
  rw [List.map_cons, hlexemes]
  rfl

end Scans

namespace Text

/-- Characters with others put in after so many of them. -/
def insertChars (cs : List Char) (i : Nat) (more : List Char) : List Char := cs.take i ++ more ++ cs.drop i

variable {cs more : List Char} {i : Nat}

theorem insertChars_append_left (h : i ≤ cs.length) (ds : List Char) :
    insertChars (cs ++ ds) i more = insertChars cs i more ++ ds := by
  rw [insertChars, insertChars, List.take_append_of_le_length h, List.drop_append_of_le_length h]
  simp only [List.append_assoc]

theorem insertChars_append_right (cs ds : List Char) (j : Nat) :
    insertChars (cs ++ ds) (cs.length + j) more = cs ++ insertChars ds j more := by
  rw [insertChars, insertChars, List.take_length_add_append, List.drop_length_add_append]
  simp only [List.append_assoc]

theorem mem_insertChars {c : Char} (h : c ∈ insertChars cs i more) : c ∈ cs ∨ c ∈ more := by
  simp only [insertChars, List.mem_append] at h
  rcases h with (hc | hc) | hc
  · exact Or.inl (List.mem_of_mem_take hc)
  · exact Or.inr hc
  · exact Or.inl (List.mem_of_mem_drop hc)

theorem head?_insertChars {d : Char} (h : (insertChars cs i more).head? = some d) :
    cs.head? = some d ∨ d ∈ more := by
  rcases cs with _ | ⟨c, cs⟩
  · exact Or.inr ((mem_insertChars (List.mem_of_mem_head? h)).resolve_left List.not_mem_nil)
  · cases i with
    | zero =>
        rw [insertChars, List.take_zero, List.drop_zero, List.nil_append, List.head?_append] at h
        cases hmore : more.head? with
        | none =>
            rw [hmore, Option.none_or] at h
            exact Or.inl h
        | some b =>
            rw [hmore, Option.some_or] at h
            exact Or.inr (List.mem_of_mem_head? (hmore.trans h))
    | succ i => exact Or.inl h

end Text

namespace Cursor

/-- The text of a place is blank space, a lexeme, and what comes after it. -/
theorem exists_lexeme {k : Cursor} {pos : Nat} {c : Char} {cs : List Char} {kind : TokenKind} {n : Nat}
    (hskip : k.skipBlank = ⟨pos, c :: cs⟩) (hread : Lexeme.read c cs = (.ok kind, n)) :
    ∃ blank, (∀ c ∈ blank, Text.isBlank c) ∧ Text.isBlank c = false ∧
      k.rest = (blank ++ c :: cs.take n) ++ cs.drop n ∧ pos = k.pos + blank.length ∧
      (c :: cs.take n).length = n + 1 :=
  exists_front hskip (Lexeme.read_ok hread).1

/-- A lexeme is read in the same way if blank space is put in somewhere after it. -/
theorem read_insertChars {c : Char} {cs blank : List Char} {kind : TokenKind} {n : Nat}
    (hblank : ∀ c ∈ blank, Text.isBlank c) (hread : Lexeme.read c cs = (.ok kind, n)) (j : Nat) :
    Lexeme.read c (cs.take n ++ Text.insertChars (cs.drop n) j blank) = (.ok kind, (cs.take n).length) := by
  have hlength := List.length_take_of_le (Lexeme.read_ok hread).1
  rw [hlength]
  rw [← List.take_append_drop n cs] at hread
  refine Lexeme.read_replace hread (Nat.le_of_eq hlength.symm) fun d hd => ?_
  exact (Text.head?_insertChars hd).imp_right fun hd => continues_blank kind (hblank d hd)

/-- Blank space anywhere outside the tokens of a text leaves its lexemes as they are. -/
theorem scans_insertChars {blank : List Char} (hblank : ∀ c ∈ blank, Text.isBlank c) : ∀ (k : Cursor) (i : Nat),
    (∀ t ∈ (scan k).tokens, k.pos + i ≤ t.pos ∨ t.pos + t.text.length ≤ k.pos + i) →
    (∃ final, (scan k).stop = .finished final) →
    Scans (Text.insertChars k.rest i blank) ((scan k).tokens.map Token.lexeme) := by
  refine scan_induction fun k ih i houtside hstop => ?_
  have hscans := Scans.of_cursor k hstop
  -- blank space before the first lexeme only makes that before it longer
  have hbefore : ∀ {before rest : List Char}, (∀ c ∈ before, Text.isBlank c) → k.rest = before ++ rest →
      Text.insertChars (before ++ rest) i blank = Text.insertChars before i blank ++ rest →
      Scans (Text.insertChars k.rest i blank) ((scan k).tokens.map Token.lexeme) := by
    intro before rest hbefore hrest hinsert
    rw [hrest] at hscans
    rw [hrest, hinsert]
    refine (Scans.blank_append_iff fun c hc => ?_).mpr ((Scans.blank_append_iff hbefore).mp hscans)
    exact (Text.mem_insertChars hc).elim (hbefore c) (hblank c)
  rcases hskip : k.skipBlank with ⟨pos, _ | ⟨c, cs⟩⟩
  · obtain ⟨before, hblank', hrest, -, -⟩ := k.exists_blank
    rw [hskip] at hrest
    exact hbefore hblank' hrest (by rw [List.append_nil, List.append_nil])
  · rcases hread : Lexeme.read c cs with ⟨⟨fault, offset⟩ | kind, n⟩
    · rw [scan_eq, hskip] at hstop
      simp [hread] at hstop
    · obtain ⟨before, hblank', hc, hrest, rfl, hlength⟩ := exists_lexeme hskip hread
      by_cases hi : i ≤ before.length
      · exact hbefore hblank' (hrest.trans (List.append_assoc _ _ _)) (Text.insertChars_append_left hi _)
      · rw [scan_of_cons hskip hread] at houtside hstop ⊢
        obtain ⟨htoken, hlater⟩ := List.forall_mem_cons.mp houtside
        rw [String.length_ofList, hlength] at htoken
        have hfront : (before ++ c :: cs.take n).length = before.length + (n + 1) := by
          rw [List.length_append, hlength]
        obtain ⟨j, rfl⟩ : ∃ j, i = (before ++ c :: cs.take n).length + j :=
          Nat.exists_eq_add_of_le (by simp only at htoken; omega)
        rw [hrest, Text.insertChars_append_right, List.append_assoc]
        refine (Scans.blank_append_iff hblank').mpr (Scans.of_read hc (read_insertChars hblank hread j) ?_)
        refine ih _ c cs kind n hskip hread j (fun t ht => ?_) hstop
        have hplace := hlater t ht
        simp only at hplace ⊢
        omega

/-- The text of a token is what stands at its place. -/
theorem text_eq_take : ∀ k : Cursor, ∀ t ∈ (scan k).tokens, k.pos ≤ t.pos ∧
    (k.rest.drop (t.pos - k.pos)).take t.text.length = t.text.toList := by
  refine scan_induction fun k ih => ?_
  rcases hskip : k.skipBlank with ⟨pos, _ | ⟨c, cs⟩⟩
  · rw [scan_eq, hskip]
    simp
  · rcases hread : Lexeme.read c cs with ⟨⟨fault, offset⟩ | kind, n⟩
    · rw [scan_eq, hskip]
      simp [hread]
    · obtain ⟨blank, -, -, hrest, rfl, hlength⟩ := exists_lexeme hskip hread
      rw [scan_of_cons hskip hread]
      refine List.forall_mem_cons.mpr ⟨⟨Nat.le_add_right _ _, ?_⟩, fun t ht => ?_⟩
      · rw [Nat.add_sub_cancel_left, hrest, List.append_assoc, List.drop_left, String.length_ofList,
          String.toList_ofList, List.take_left]
      · obtain ⟨hfrom, htext⟩ := ih _ c cs kind n hskip hread t ht
        simp only at hfrom htext
        have hfront : (blank ++ c :: cs.take n).length = blank.length + (n + 1) := by
          rw [List.length_append, hlength]
        have hplace : t.pos - k.pos =
            (blank ++ c :: cs.take n).length + (t.pos - (k.pos + blank.length + n + 1)) := by omega
        refine ⟨by omega, ?_⟩
        rw [hplace, hrest, List.drop_length_add_append, htext]

end Cursor

/-! ### Letters in either case -/

namespace Text

variable {p : Char → Bool}

theorem Caseless.iff (h : Caseless p) (c : Char) : p c.toLower = true ↔ p c = true := Bool.eq_iff_iff.mp (h c)

theorem caseless_isBlank : Caseless isBlank := caseless_of_capitals (by decide)

theorem caseless_isDigit : Caseless Char.isDigit := caseless_of_capitals (by decide)

theorem caseless_continuesName : Caseless continuesName := caseless_of_capitals (by decide)

theorem caseless_startsName : Caseless startsName := caseless_of_capitals (by decide)

/-- A character that is no letter is written in one way only. -/
theorem toLower_eq_iff {d : Char} (h : (List.range' 65 26).all fun n =>
    ((Char.ofNat n).toLower == d) == (Char.ofNat n == d)) (c : Char) : c.toLower = d ↔ c = d := by
  have hcaseless : Caseless (· == d) := caseless_of_capitals h
  simpa using hcaseless.iff c

theorem Caseless.takeWhile (h : Caseless p) (cs : List Char) :
    (cs.map Char.toLower).takeWhile p = (cs.takeWhile p).map Char.toLower := by
  have hp : p ∘ Char.toLower = p := funext h
  rw [List.takeWhile_map, hp]

theorem Caseless.dropWhile (h : Caseless p) (cs : List Char) :
    (cs.map Char.toLower).dropWhile p = (cs.dropWhile p).map Char.toLower := by
  have hp : p ∘ Char.toLower = p := funext h
  rw [List.dropWhile_map, hp]

end Text

namespace Lexeme

theorem either_toLower {second : Char} (h : ∀ c : Char, c.toLower = second ↔ c = second) (both alone : TokenKind)
    (cs : List Char) : either second both alone (cs.map Char.toLower) = either second both alone cs := by
  cases cs with
  | nil => rfl
  | cons c cs => simp only [List.map_cons, either, h]

theorem quotedLength?_toLower {quote : Char} (h : ∀ c : Char, c.toLower = quote ↔ c = quote) (cs : List Char) :
    quotedLength? quote (cs.map Char.toLower) = quotedLength? quote cs := by
  fun_induction quotedLength? quote cs with
  | case1 => rfl
  | case2 => simp [quotedLength?, h]
  | case3 ds ih => simp [quotedLength?, h, ih]
  | case4 d ds hd => simp [quotedLength?, h, hd]
  | case5 c cs hc ih =>
      have hstep : quotedLength? quote (c.toLower :: cs.map Char.toLower) =
          (quotedLength? quote (cs.map Char.toLower)).map (· + 1) := by
        rw [quotedLength?.eq_def]
        exact if_neg (mt (h c).mp hc)
      rw [List.map_cons, hstep, ih]

theorem digitCount_toLower (cs : List Char) : digitCount (cs.map Char.toLower) = digitCount cs := by
  rw [digitCount, digitCount, Text.caseless_isDigit.takeWhile, List.length_map]

theorem fractionLength_toLower (cs : List Char) : fractionLength (cs.map Char.toLower) = fractionLength cs := by
  have hpoint := Text.toLower_eq_iff (d := '.') (by decide)
  cases cs with
  | nil => rfl
  | cons c cs =>
      rw [List.map_cons]
      by_cases hc : c = '.'
      · rw [(hpoint c).mpr hc, hc]
        simp only [fractionLength, digitCount_toLower]
      · simp [fractionLength, hc, mt (hpoint c).mp hc]

theorem signLength_toLower (cs : List Char) : signLength (cs.map Char.toLower) = signLength cs := by
  have hsign : Text.Caseless fun c => c == '+' || c == '-' := Text.caseless_of_capitals (by decide)
  cases cs with
  | nil => rfl
  | cons c cs =>
      have hc : (c.toLower = '+' ∨ c.toLower = '-') ↔ (c = '+' ∨ c = '-') := by simpa using hsign.iff c
      simp only [List.map_cons, signLength, hc]

theorem exponentLength_toLower (cs : List Char) : exponentLength (cs.map Char.toLower) = exponentLength cs := by
  have hmark : Text.Caseless fun c => c == 'e' || c == 'E' := Text.caseless_of_capitals (by decide)
  cases cs with
  | nil => rfl
  | cons c cs =>
      have hc : (c.toLower = 'e' ∨ c.toLower = 'E') ↔ (c = 'e' ∨ c = 'E') := by simpa using hmark.iff c
      rw [List.map_cons]
      by_cases h : c = 'e' ∨ c = 'E'
      · rw [exponentLength_of_mark h, exponentLength_of_mark (hc.mpr h), signLength_toLower, ← List.map_drop,
          digitCount_toLower]
      · rw [exponentLength_of_not_mark h, exponentLength_of_not_mark (mt hc.mp h)]

theorem suffixLength_toLower (cs : List Char) : suffixLength (cs.map Char.toLower) = suffixLength cs := by
  have hsuffix : Text.Caseless fun c => c == 'f' || c == 'F' := Text.caseless_of_capitals (by decide)
  cases cs with
  | nil => rfl
  | cons c cs =>
      have hc : (c.toLower = 'f' ∨ c.toLower = 'F') ↔ (c = 'f' ∨ c = 'F') := by simpa using hsuffix.iff c
      simp only [List.map_cons, suffixLength, hc]

theorem number_toLower (cs : List Char) : number (cs.map Char.toLower) = number cs := by
  simp only [number, ← List.map_drop, digitCount_toLower, fractionLength_toLower, exponentLength_toLower,
    suffixLength_toLower]

/-- The characters after the first one may be written in either case. -/
theorem read_map_toLower (c : Char) (cs : List Char) : read c (cs.map Char.toLower) = read c cs := by
  unfold read
  split
  case h_1 | h_14 | h_15 => exact either_toLower (Text.toLower_eq_iff (by decide)) _ _ cs
  case h_3 | h_19 => exact either_toLower (Text.toLower_eq_iff (by decide)) _ _ cs
  case h_13 =>
    have hequal := Text.toLower_eq_iff (d := '=') (by decide)
    have hgreater := Text.toLower_eq_iff (d := '>') (by decide)
    cases cs with
    | nil => rfl
    | cons d cs =>
        rw [List.map_cons]
        by_cases h : d = '='
        · simp [h]
        · by_cases h' : d = '>'
          · simp [h']
          · simp [h, h', mt (hequal d).mp h, mt (hgreater d).mp h']
  case h_20 =>
    have hquoted : c = '"' ∨ c = '\'' → quotedLength? c (cs.map Char.toLower) = quotedLength? c cs := by
      rintro (rfl | rfl)
      · exact quotedLength?_toLower (Text.toLower_eq_iff (by decide)) cs
      · exact quotedLength?_toLower (Text.toLower_eq_iff (by decide)) cs
    split
    · rename_i hquote
      rw [hquoted hquote, List.length_map]
    · rw [Text.caseless_continuesName.takeWhile, List.length_map, number_toLower]
  all_goals rfl

/-- Small letters are scanned like capital ones. -/
theorem read_toLower (c : Char) (cs : List Char) : read c.toLower (cs.map Char.toLower) = read c cs := by
  by_cases hc : c.toLower = c
  · rw [hc, read_map_toLower]
  · have hcapitals : (List.range' 65 26).all fun n => startsName (Char.ofNat n) := by decide
    have hname := List.all_eq_true.mp hcapitals _ (Text.mem_capitals hc)
    rw [Char.ofNat_toNat] at hname
    have hname' : startsName c.toLower := (Text.caseless_startsName.iff c).mpr hname
    rw [read_of_startsName hname, read_of_startsName hname', Text.caseless_continuesName.takeWhile, List.length_map]

end Lexeme

/-- A token with its letters small. -/
def Token.folded (t : Token) : Token := { t with text := Text.fold t.text }

/-- A text in small letters is scanned like the text itself. -/
theorem Cursor.scan_toLower : ∀ k : Cursor, scan ⟨k.pos, k.rest.map Char.toLower⟩ =
    ⟨(scan k).tokens.map Token.folded, (scan k).stop⟩ := by
  refine scan_induction fun k ih => ?_
  have hskip' : skipBlank ⟨k.pos, k.rest.map Char.toLower⟩ =
      ⟨k.skipBlank.pos, k.skipBlank.rest.map Char.toLower⟩ := by
    simp only [skipBlank, Text.caseless_isBlank.takeWhile, Text.caseless_isBlank.dropWhile, List.length_map]
  rw [scan_eq, scan_eq k, hskip']
  rcases hskip : k.skipBlank with ⟨pos, _ | ⟨c, cs⟩⟩
  · rfl
  · simp only [List.map_cons, read_toLower]
    rcases hread : Lexeme.read c cs with ⟨⟨fault, offset⟩ | kind, n⟩
    · rfl
    · have hlater := ih pos c cs kind n hskip hread
      simp only [← List.map_drop, ← List.map_take, hlater, List.map_cons, Token.folded, Text.fold,
        String.toList_ofList]

/-- Texts that differ only in case have the same tokens but for their case, at the same places. -/
theorem scan_folded {text text' : String} (h : Text.fold text = Text.fold text') :
    (scan text).tokens.map Token.folded = (scan text').tokens.map Token.folded ∧
      (scan text).stop = (scan text').stop := by
  have hlower : ∀ text : String, Cursor.scan ⟨0, text.toList.map Char.toLower⟩ =
      ⟨(scan text).tokens.map Token.folded, (scan text).stop⟩ := fun text => Cursor.scan_toLower ⟨0, text.toList⟩
  have hscan : (⟨(scan text).tokens.map Token.folded, (scan text).stop⟩ : Scan) =
      ⟨(scan text').tokens.map Token.folded, (scan text').stop⟩ :=
    calc
      _ = Cursor.scan ⟨0, text.toList.map Char.toLower⟩ := (hlower text).symm
      _ = Cursor.scan ⟨0, text'.toList.map Char.toLower⟩ := by rw [Text.fold_eq_iff.mp h]
      _ = _ := hlower text'
  simpa only [Scan.mk.injEq] using hscan

/-- A text keeps some tokens as they are where they stand: literals, and names that come after the word `as`.
The mark says whether the first token comes after it. -/
inductive Retains (text : List Char) : Bool → List Token → Prop
  | nil {field : Bool} : Retains text field []
  | cons {field : Bool} {t : Token} {ts : List Token}
      (h : t.kind.isLiteral ∨ field ∧ t.kind = .identifier →
        (text.drop t.pos).take t.text.length = t.text.toList)
      (later : Retains text (t.isWord "as") ts) : Retains text field (t :: ts)

theorem respells_of_retains {text : List Char} {field : Bool} {ts us : List Token} (h : Retains text field ts)
    (hfolded : ts.map Token.folded = us.map Token.folded)
    (hplace : ∀ u ∈ us, (text.drop u.pos).take u.text.length = u.text.toList) : Respells field ts us := by
  induction h generalizing us with
  | nil =>
      obtain rfl := List.map_eq_nil_iff.mp hfolded.symm
      exact .nil
  | @cons field t ts h later ih =>
      obtain ⟨u, us, rfl, hu, hus⟩ := List.map_eq_cons_iff.mp hfolded.symm
      obtain ⟨hat, hats⟩ := List.forall_mem_cons.mp hplace
      simp only [Token.folded, Token.mk.injEq] at hu
      obtain ⟨hkind, htext, hpos⟩ := hu
      have hlength : u.text.length = t.text.length := by
        have hchars := congrArg List.length (Text.fold_eq_iff.mp htext)
        rwa [List.length_map, List.length_map, String.length_toList, String.length_toList] at hchars
      have hsame : t.kind.isLiteral ∨ field ∧ t.kind = .identifier → t.text = u.text := by
        intro hkept
        refine String.toList_inj.mp ?_
        rw [← h hkept, ← hat, hpos, hlength]
      refine .cons ⟨hkind.symm, fun hliteral => hsame (Or.inl hliteral), fun _ => htext.symm⟩
        (fun hfield hname => hsame (Or.inr ⟨hfield, hname⟩)) (ih hus.symm hats)

/-! ### Compilation -/

theorem Respells.of_append {field : Bool} {ts us ts' us' : List Token} (hlength : ts.length = us.length)
    (h : Respells field (ts ++ ts') (us ++ us')) : Respells field ts us := by
  induction ts generalizing field us with
  | nil =>
      obtain rfl := List.length_eq_zero_iff.mp hlength.symm
      exact .nil
  | cons t ts ih =>
      rcases us with _ | ⟨u, us⟩
      · cases hlength
      · cases h with
        | cons halike hfield later => exact .cons halike hfield (ih (Nat.succ.inj hlength) later)

theorem Retains.of_append {text : List Char} {field : Bool} {ts us : List Token}
    (h : Retains text field (ts ++ us)) : Retains text field ts := by
  induction ts generalizing field with
  | nil => exact .nil
  | cons t ts ih =>
      cases h with
      | cons h later => exact .cons h (ih later)

/-- A text with another one put in after so many characters. -/
def Text.insertAt (text : String) (i : Nat) (more : String) : String :=
  String.ofList (insertChars text.toList i more.toList)

/-- What is compiled depends on the tokens of a text only, and on its names only up to their case, but for those
of fields. So blank space may be put in anywhere outside the tokens, and all letters may be written in either
case but for those of literals and of names after the word `as`. -/
theorem Environment.compile_respelled (env : Environment) (params : List ParamDecl) (result : Option Ty)
    (args : List Argument) (shapes : Shapes) {text : String} {ts : List Token} (h : tokenize text = .ok ts) :
    let compiled := fun text => (env.compile params result text args).exec shapes
    (∀ text' us, tokenize text' = .ok us → Respells false ts us → SameOutcome (compiled text) (compiled text')) ∧
      (∀ i blank, (∀ t ∈ ts, i ≤ t.pos ∨ t.pos + t.text.length ≤ i) → Text.isBlankText blank →
        SameOutcome (compiled text) (compiled (Text.insertAt text i blank))) ∧
      (∀ text', Text.fold text = Text.fold text' → Retains text'.toList false ts →
        SameOutcome (compiled text) (compiled text')) := by
  intro compiled
  obtain ⟨pos, hstop, rfl⟩ := tokenize_eq_ok.mp h
  have halike : ∀ {text'}, Respells false (scan text).tokens (scan text').tokens →
      (∃ pos, (scan text').stop = .finished pos) → SameOutcome (compiled text) (compiled text') :=
    fun hrespells hstop' => env.compile_alike params result args shapes hrespells ⟨pos, hstop⟩ hstop'
  refine ⟨fun text' us h' hrespells => ?_, fun i blank houtside hblank => ?_, fun text' hfold hretains => ?_⟩
  · obtain ⟨pos', hstop', rfl⟩ := tokenize_eq_ok.mp h'
    have hlength := hrespells.length_eq
    rw [List.length_append, List.length_append] at hlength
    exact halike (hrespells.of_append (Nat.add_right_cancel hlength)) ⟨pos', hstop'⟩
  · have hblank' : ∀ c ∈ blank.toList, Text.isBlank c := List.all_eq_true.mp hblank
    have hscans := Cursor.scans_insertChars hblank' ⟨0, text.toList⟩ i (fun t ht => ?_) ⟨pos, hstop⟩
    · have htext : (Text.insertAt text i blank).toList = Text.insertChars text.toList i blank.toList :=
        String.toList_ofList
      rw [← htext] at hscans
      obtain ⟨hlexemes, hstop'⟩ := hscans 0
      exact halike (respells_of_lexemes hlexemes.symm) hstop'
    · have hplace := houtside t (List.mem_append_left _ ht)
      rwa [Nat.zero_add]
  · obtain ⟨hfolded, hstop'⟩ := scan_folded hfold
    refine halike (respells_of_retains hretains.of_append hfolded fun u hu => ?_) ⟨pos, hstop'.symm.trans hstop⟩
    exact (Cursor.text_eq_take ⟨0, text'.toList⟩ u hu).2

/-- A projection with other blank space and in other letters. -/
theorem Environment.compile_respelled_field :
    let compiled := fun text => ((⟨.empty, .empty⟩ : Environment).compile [] none text []).exec .empty
    (compiled "new(Not True as Total)").1.toOption.isSome = true ∧
      SameOutcome (compiled "new(Not True as Total)") (compiled "NEW ( not true AS Total )") ∧
      SameOutcome (compiled "new(Not True as Total)") (compiled "new (Not True as Total)") ∧
      SameOutcome (compiled "new(Not True as Total)") (compiled "nEW(noT tRUE aS Total)") := by
  have htokens : tokenize "new(Not True as Total)" = .ok
      [⟨.identifier, "new", 0⟩, ⟨.openParen, "(", 3⟩, ⟨.identifier, "Not", 4⟩, ⟨.identifier, "True", 8⟩,
        ⟨.identifier, "as", 13⟩, ⟨.identifier, "Total", 16⟩, ⟨.closeParen, ")", 21⟩, ⟨.done, "", 22⟩] :=
    toOption_eq_some.mp (by decide +kernel)
  have htokens' : tokenize "NEW ( not true AS Total )" = .ok
      [⟨.identifier, "NEW", 0⟩, ⟨.openParen, "(", 4⟩, ⟨.identifier, "not", 6⟩, ⟨.identifier, "true", 10⟩,
        ⟨.identifier, "AS", 15⟩, ⟨.identifier, "Total", 18⟩, ⟨.closeParen, ")", 24⟩, ⟨.done, "", 25⟩] :=
    toOption_eq_some.mp (by decide +kernel)
  obtain ⟨htexts, hblank, hcase⟩ :=
    Environment.compile_respelled ⟨.empty, .empty⟩ [] none [] .empty htokens
  refine ⟨by decide +kernel, htexts _ _ htokens' ?_, ?_, hcase _ (by decide +kernel) ?_⟩
  · repeat (first | exact .nil | refine .cons (by decide +kernel) (by decide +kernel) ?_)
  · exact hblank 3 " " (by decide +kernel) (by decide +kernel)
  · repeat (first | exact .nil | refine .cons (by decide +kernel) ?_)

end RowQuery
