import Mathlib.Data.Nat.Digits.Defs
import RowQuery.Proofs.Embedding
import RowQuery.Proofs.Failing
import RowQuery.Proofs.RoundTrip

/-!
Integer literals. Digits denote the number whose decimal digits they are, zeros in front included. Alone they are a
literal of the first of four integral types that holds the number; after a minus sign, with any blank space between,
the two are one literal of a signed type. The literal keeps its text, in which the sign stands right before the digits,
and a number that no type holds is refused where the text begins.
-/

namespace RowQuery

open Parse Grammar Lexeme

/-- Digits denote the number that they are the decimal digits of. -/
theorem Digits.value_eq (cs : List Char) : value cs = Nat.ofDigits 10 (cs.reverse.map digit) := by
  induction cs using List.reverseRecOn with
  | nil => rfl
  | append_singleton cs c ih =>
      have hstep : value (cs ++ [c]) = 10 * value cs + digit c := by
        simp [value, valueFrom, List.foldl_append]
      rw [hstep, ih, List.reverse_append, List.map_append]
      simp only [List.reverse_cons, List.reverse_nil, List.nil_append, List.map_cons, List.map_nil, List.cons_append,
        Nat.ofDigits_cons]
      exact Nat.add_comm _ _

/-! ### The types of literals -/

namespace IntKind

variable {v : Int}

theorem holds_int32 : int32.Holds v ↔ -(2 ^ 31) ≤ v ∧ v ≤ 2 ^ 31 - 1 := Iff.rfl

theorem holds_uint32 : uint32.Holds v ↔ 0 ≤ v ∧ v ≤ 2 ^ 32 - 1 := Iff.rfl

theorem holds_int64 : int64.Holds v ↔ -(2 ^ 63) ≤ v ∧ v ≤ 2 ^ 63 - 1 := Iff.rfl

theorem holds_uint64 : uint64.Holds v ↔ 0 ≤ v ∧ v ≤ 2 ^ 64 - 1 := Iff.rfl

end IntKind

namespace SignedDigits

open IntKind

variable {n : SignedDigits}

theorem head_text (n : SignedDigits) : n.text.toList.head? = some '-' ↔ n.negative := by
  obtain ⟨negative, digits, hne, hdigits⟩ := n
  cases negative with
  | true => simp [text]
  | false =>
      obtain ⟨c, cs, rfl⟩ := List.exists_cons_of_ne_nil hne
      have hc : c.isDigit := hdigits c List.mem_cons_self
      simp only [text, Bool.false_eq_true, if_false, String.toList_ofList, List.head?_cons, Option.some.injEq,
        iff_false]
      rintro rfl
      exact absurd hc (by decide)

/-- The types of literals, the narrower before the wider: only signed ones after a minus sign. -/
def kinds (n : SignedDigits) : List IntKind :=
  if n.negative then [.int32, .int64] else [.int32, .uint32, .int64, .uint64]

/-- Whether some type of literals holds the number. -/
def InRange (n : SignedDigits) : Prop := if n.negative then -(2 ^ 63) ≤ n.value else n.value < 2 ^ 64

instance (n : SignedDigits) : Decidable n.InRange :=
  inferInstanceAs (Decidable (if n.negative then _ else _))

theorem holds_kinds_iff : (∃ k ∈ n.kinds, k.Holds n.value) ↔ n.InRange := by
  unfold kinds InRange value
  cases n.negative with
  | true =>
      simp only [if_true, List.mem_cons, List.not_mem_nil, or_false, exists_eq_or_imp, exists_eq_left, holds_int32,
        holds_int64]
      omega
  | false =>
      simp only [Bool.false_eq_true, if_false, List.mem_cons, List.not_mem_nil, or_false, exists_eq_or_imp,
        exists_eq_left, holds_int32, holds_uint32, holds_int64, holds_uint64]
      omega

theorem integerLiteral?_text (n : SignedDigits) :
    integerLiteral? n.text = n.kinds.findSome? fun k =>
      (Word.ofInt? k n.value).map fun w => .literal (.int k) (.int k w) n.text := by
  have hkinds : n.kinds =
      if n.text.toList.head? = some '-' then [.int32, .int64] else [.int32, .uint32, .int64, .uint64] := by
    simp only [kinds, n.head_text]
  rw [integerLiteral?, n.int?_text, hkinds]
  rfl

/-- A number has the first type that holds it. -/
theorem findSome?_ofInt? {α : Type} {kinds : List IntKind} {k : IntKind} {v : Int} (f : (k : IntKind) → Word k → α)
    (h : kinds.find? (fun k => k.Holds v) = some k) :
    ∃ w : Word k, w.val = v ∧ kinds.findSome? (fun k => (Word.ofInt? k v).map (f k)) = some (f k w) := by
  induction kinds with
  | nil => cases h
  | cons j kinds ih =>
      by_cases hj : j.Holds v
      · rw [List.find?_cons_of_pos (by simpa using hj)] at h
        cases h
        exact ⟨⟨v, hj⟩, rfl, by simp [Word.ofInt?, hj]⟩
      · rw [List.find?_cons_of_neg (by simpa using hj)] at h
        obtain ⟨w, hw, hfind⟩ := ih h
        exact ⟨w, hw, by simpa [Word.ofInt?, hj] using hfind⟩

theorem exists_literal {k : IntKind} (h : n.kinds.find? (fun k => k.Holds n.value) = some k) :
    ∃ w : Word k, w.val = n.value ∧ integerLiteral? n.text = some (.literal (.int k) (.int k w) n.text) := by
  rw [integerLiteral?_text]
  exact findSome?_ofInt? (fun k w => Expr.literal (.int k) (.int k w) n.text) h

theorem exists_kind (h : n.InRange) : ∃ k, n.kinds.find? (fun k => k.Holds n.value) = some k := by
  rw [← Option.isSome_iff_exists, List.find?_isSome]
  simpa using holds_kinds_iff.mpr h

theorem literal_eq_none (h : ¬n.InRange) : integerLiteral? n.text = none := by
  rw [integerLiteral?_text, List.findSome?_eq_none_iff]
  intro k hk
  have hk' : ¬k.Holds n.value := fun hholds => h (holds_kinds_iff.mp ⟨k, hk, hholds⟩)
  simp [Word.ofInt?, hk']

/-! ### Tokens -/

/-- The digits, after a minus sign and blank space or alone. -/
def spaced (n : SignedDigits) (blank : List Char) : String :=
  if n.negative then String.ofList ('-' :: (blank ++ n.digits)) else String.ofList n.digits

theorem scans_spaced (n : SignedDigits) {blank : List Char} (hblank : ∀ c ∈ blank, Text.isBlank c) :
    Scans (n.spaced blank).toList n.lexemes := by
  have hdigits : Scans n.digits [⟨.integerLiteral, String.ofList n.digits⟩] := by
    simpa using Scans.single (Whole.of_digits n.nonempty n.isDigit)
  have hafter : Scans (blank ++ n.digits) [⟨.integerLiteral, String.ofList n.digits⟩] := by
    induction blank with
    | nil => exact hdigits
    | cons c blank ih =>
        obtain ⟨hc, hblank⟩ := List.forall_mem_cons.mp hblank
        exact (ih hblank).after_blank hc
  unfold spaced lexemes
  split
  · have hminus : Whole ⟨.minus, "-"⟩ := ⟨'-', [], rfl, by decide, rfl⟩
    simpa using hafter.cons hminus fun _ _ => rfl
  · simpa using hdigits

theorem exists_spaced (n : SignedDigits) (blank : List Char) :
    ∃ c cs, (n.spaced blank).toList = c :: cs ∧ Text.isBlank c = false := by
  unfold spaced
  split
  · exact ⟨'-', blank ++ n.digits, String.toList_ofList, by decide⟩
  · obtain ⟨c, cs, htext, hc, -⟩ := Whole.of_digits n.nonempty n.isDigit
    exact ⟨c, cs, htext, hc⟩

end SignedDigits

/-- A text that does not start with blank space is read from its start. -/
theorem Environment.pos_of_advance {scope : Scope} {params : List Param} {text : String} {shapes : Shapes} {s : Reading}
    {c : Char} {cs : List Char} (htext : text.toList = c :: cs) (hc : Text.isBlank c = false)
    (h : Reads advance scope (start params text shapes) () s) : s.token.pos = 0 := by
  have hskip : Cursor.skipBlank ⟨0, [] ++ c :: cs⟩ = ⟨0, c :: cs⟩ := Cursor.skipBlank_append (by simp) hc 0
  have hscan : scan text = Cursor.scan ⟨0, [] ++ c :: cs⟩ := by rw [scan, htext, List.nil_append]
  rw [Cursor.scan_eq, hskip] at hscan
  rcases hread : Lexeme.read c cs with ⟨⟨fault, offset⟩ | kind, n⟩ <;> simp only [hread] at hscan <;>
    rcases reads_advance_iff.mp h with ⟨t, ts, hrest, rfl⟩ | ⟨pos, hrest, hstop, rfl⟩
  · simp [start, hscan] at hrest
  · simp [start, hscan] at hstop
  · simp only [start, hscan, List.cons.injEq] at hrest
    rw [← hrest.1]
  · simp [start, hscan] at hrest

/-! ### Literals that are refused -/

namespace Grammar

variable {scope : Scope} {inner : Level} {s : Reading} {rest : List Lexeme}

theorem fails_literal (hkind : s.token.kind = .integerLiteral) (h : integerLiteral? s.token.text = none) :
    Fails (primary inner) scope s ⟨.invalidInteger s.token.text, s.token.pos⟩ := by
  refine Fails.bind ((reads_token.mpr ⟨rfl, rfl⟩).fails ?_) _
  simp only [hkind, h, literal]
  exact fails_fail (.invalidInteger s.token.text)

/-- The digits after a minus sign are blamed together with it, and where it stands. -/
theorem fails_digits (n : SignedDigits) (hs : s.Ahead (n.lexemes ++ rest)) (h : integerLiteral? n.text = none) :
    Fails (unary inner) scope s ⟨.invalidInteger n.text, s.token.pos⟩ := by
  cases hnegative : n.negative with
  | false =>
      rw [SignedDigits.lexemes, hnegative] at hs
      have hlexeme : s.token.lexeme = ⟨.integerLiteral, String.ofList n.digits⟩ := hs.shows
      have hkind : s.token.kind = .integerLiteral := congrArg Lexeme.kind hlexeme
      have htext : s.token.text = n.text := by
        rw [SignedDigits.text, hnegative]
        exact congrArg Lexeme.text hlexeme
      have hprimary : Fails (primary inner) scope s _ := fails_literal hkind (by rw [htext, h])
      rw [htext] at hprimary
      exact fails_unary hprimary (by simp [unaryOperator?, Token.isWord, hkind])
  | true =>
      rw [SignedDigits.lexemes, hnegative] at hs
      have hop : unaryOperator? s.token = some .negate := by
        have hkind : s.token.kind = .minus := kind_of_shows hs.shows
        simp [unaryOperator?, hkind]
      obtain ⟨s', hadvance, hahead, -⟩ := exists_advance scope hs.rest hs.finished
      have hlexeme : s'.token.lexeme = ⟨.integerLiteral, String.ofList n.digits⟩ := hahead.shows
      have hdigits : s'.token.kind = .integerLiteral := congrArg Lexeme.kind hlexeme
      have htext : "-" ++ s'.token.text = n.text := by
        rw [SignedDigits.text, hnegative]
        exact congrArg ("-" ++ ·) (congrArg Lexeme.text hlexeme)
      refine (reads_token.mpr ⟨rfl, rfl⟩).fails ?_
      rw [hop]
      refine hadvance.fails ((reads_token.mpr ⟨rfl, rfl⟩).fails ?_)
      rw [if_pos ⟨rfl, Or.inl hdigits⟩, hdigits, htext]
      exact Reads.fails (a := ()) (reads_modify.mpr rfl) (fails_literal rfl h)

end Grammar

/-! ### Whole texts -/

namespace Environment

variable {env : Environment} {decls : List ParamDecl} {args : List Argument} {symbols : Symbols}

theorem compile_spaced (hsymbols : Symbols.ofText (bindParams decls) args = .ok symbols) (n : SignedDigits)
    {blank : List Char} (hblank : ∀ c ∈ blank, Text.isBlank c) {e : Expr} (h : integerLiteral? n.text = some e)
    (shapes : Shapes) :
    ((env.compile decls none (n.spaced blank) args).exec shapes).1 = .ok ⟨bindParams decls, e, decls.length⟩ := by
  have hinner := level_derived (maxDepth - 1)
  have hoperand : Takes (reader (level (maxDepth - 1)) 6) (env.scope (bindParams decls) symbols)
      (decls.length, .empty) n.lexemes e (decls.length, .empty) [] := takes_digits hinner n h (.nil 6)
  have hexpression := takes_descend hinner hoperand (Nat.zero_le 6) (.nil 0)
  exact (compiles_of_takes hsymbols (n.scans_spaced hblank) hexpression (by simp)).compile_eq_ok shapes

theorem compile_spaced_of_none (hsymbols : Symbols.ofText (bindParams decls) args = .ok symbols) (n : SignedDigits)
    {blank : List Char} (hblank : ∀ c ∈ blank, Text.isBlank c) (h : integerLiteral? n.text = none) (shapes : Shapes) :
    ((env.compile decls none (n.spaced blank) args).exec shapes).1 = .error ⟨.invalidInteger n.text, 0⟩ := by
  obtain ⟨s, hadvance, hahead, -⟩ :=
    (n.scans_spaced hblank).begins (env.scope (bindParams decls) symbols) (bindParams decls) shapes
  obtain ⟨c, cs, htext, hc⟩ := n.exists_spaced blank
  have hpos : s.token.pos = 0 := pos_of_advance htext hc hadvance
  rw [← List.append_nil n.lexemes] at hahead
  have hoperand : Fails (unary (level (maxDepth - 1))) (env.scope (bindParams decls) symbols) s _ :=
    fails_digits n hahead h
  rw [hpos] at hoperand
  exact compile_of_fails none hsymbols hadvance (fails_reader hoperand 0)

/-- Digits are a literal of the first of four types that holds their number, and digits after a minus sign and blank
space one of the first of two. The text that the literal keeps denotes the same integer. Numbers that no type holds are
refused. -/
theorem compile_integer (hsymbols : Symbols.ofText (bindParams decls) args = .ok symbols) (shapes : Shapes)
    {digits : List Char} (hne : digits ≠ []) (hdigits : ∀ c ∈ digits, c.isDigit) {blank : List Char}
    (hblank : ∀ c ∈ blank, Text.isBlank c) :
    let n : Nat := Nat.ofDigits 10 (digits.reverse.map Digits.digit)
    let compiled (text : String) := ((env.compile decls none text args).exec shapes).1
    let alone := String.ofList digits
    let negated := "-" ++ String.ofList digits
    (n < 2 ^ 64 → ∃ (k : IntKind) (w : Word k),
      [IntKind.int32, .uint32, .int64, .uint64].find? (fun k => k.Holds n) = some k ∧ w.val = n ∧
      compiled alone = .ok ⟨bindParams decls, .literal (.int k) (.int k w) alone, decls.length⟩) ∧
    (2 ^ 64 ≤ n → compiled alone = .error ⟨.invalidInteger alone, 0⟩) ∧
    (n ≤ 2 ^ 63 → ∃ (k : IntKind) (w : Word k),
      k = (if -(2 ^ 31) ≤ -(n : Int) then .int32 else .int64) ∧ w.val = -n ∧
      compiled (String.ofList ('-' :: (blank ++ digits))) =
        .ok ⟨bindParams decls, .literal (.int k) (.int k w) negated, decls.length⟩) ∧
    (2 ^ 63 < n →
      compiled (String.ofList ('-' :: (blank ++ digits))) = .error ⟨.invalidInteger negated, 0⟩) ∧
    Digits.int? alone.toList = some (n : Int) ∧ Digits.int? negated.toList = some (-n : Int) := by
  intro n compiled alone negated
  let plain : SignedDigits := ⟨false, digits, hne, hdigits⟩
  let minus : SignedDigits := ⟨true, digits, hne, hdigits⟩
  have hplain : plain.value = n := congrArg Int.ofNat (Digits.value_eq digits)
  have hminus : minus.value = -(n : Int) := congrArg (fun v : Nat => -(v : Int)) (Digits.value_eq digits)
  refine ⟨fun hn => ?_, fun hn => ?_, fun hn => ?_, fun hn => ?_, ?_, ?_⟩
  · have hrange : plain.InRange := by
      show plain.value < 2 ^ 64
      omega
    obtain ⟨k, hk⟩ := SignedDigits.exists_kind hrange
    obtain ⟨w, hw, hliteral⟩ := SignedDigits.exists_literal hk
    rw [hplain] at hk hw
    exact ⟨k, w, hk, hw, compile_spaced hsymbols plain hblank hliteral shapes⟩
  · have hrange : ¬plain.InRange := by
      show ¬plain.value < 2 ^ 64
      omega
    exact compile_spaced_of_none hsymbols plain hblank (SignedDigits.literal_eq_none hrange) shapes
  · have hk : minus.kinds.find? (fun k => k.Holds minus.value) =
        some (if -(2 ^ 31) ≤ -(n : Int) then .int32 else .int64) := by
      show [IntKind.int32, .int64].find? (fun k => k.Holds minus.value) = _
      rw [hminus]
      by_cases hsmall : -(2 ^ 31) ≤ -(n : Int)
      · rw [if_pos hsmall, List.find?_cons_of_pos]
        simp only [IntKind.holds_int32, decide_eq_true_eq]
        omega
      · rw [if_neg hsmall, List.find?_cons_of_neg, List.find?_cons_of_pos]
        · simp only [IntKind.holds_int64, decide_eq_true_eq]
          omega
        · simp only [IntKind.holds_int32, decide_eq_true_eq]
          omega
    obtain ⟨w, hw, hliteral⟩ := SignedDigits.exists_literal hk
    rw [hminus] at hw
    exact ⟨_, w, rfl, hw, compile_spaced hsymbols minus hblank hliteral shapes⟩
  · have hrange : ¬minus.InRange := by
      show ¬-(2 ^ 63) ≤ minus.value
      omega
    exact compile_spaced_of_none hsymbols minus hblank (SignedDigits.literal_eq_none hrange) shapes
  · exact plain.int?_text.trans (congrArg some hplain)
  · exact minus.int?_text.trans (congrArg some hminus)

/-- The magnitude of the least word of 32 bits: after a minus sign it is that word, and alone it needs a type without
sign. -/
theorem compile_integer_least :
    let env : Environment := ⟨.empty, .empty⟩
    let compiled (text : String) := ((env.compile [⟨none, .string⟩] none text []).exec .empty).1
    (∃ w : Word .uint32, w.val = 2147483648 ∧ compiled "02147483648" =
      .ok ⟨[⟨none, .string, 0⟩], .literal (.int .uint32) (.int .uint32 w) "02147483648", 1⟩) ∧
    ∃ w : Word .int32, w.val = -2147483648 ∧ compiled "- \t02147483648" =
      .ok ⟨[⟨none, .string, 0⟩], .literal (.int .int32) (.int .int32 w) "-02147483648", 1⟩ := by
  intro env compiled
  let digits : List Char := ['0', '2', '1', '4', '7', '4', '8', '3', '6', '4', '8']
  have hdigits : ∀ c ∈ digits, c.isDigit := List.all_eq_true.mp (by decide)
  have hblank : ∀ c ∈ [' ', '\t'], Text.isBlank c := List.all_eq_true.mp (by decide)
  have hn : Nat.ofDigits 10 (digits.reverse.map Digits.digit) = 2147483648 := by decide
  obtain ⟨hplain, -, hminus, -⟩ := @compile_integer env [⟨none, .string⟩] [] [] rfl .empty digits (by simp [digits])
    hdigits [' ', '\t'] hblank
  rw [hn] at hplain hminus
  refine ⟨?_, ?_⟩
  · obtain ⟨k, w, hk, hw, hcompiled⟩ := hplain (by decide)
    obtain rfl : k = .uint32 := Option.some.inj (hk.symm.trans (by decide))
    exact ⟨w, hw, hcompiled⟩
  · obtain ⟨k, w, hk, hw, hcompiled⟩ := hminus (by decide)
    obtain rfl : k = .int32 := hk.trans (by decide)
    exact ⟨w, hw, hcompiled⟩

end Environment

end RowQuery
