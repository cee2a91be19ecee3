import Mathlib.Data.List.Chain
import Mathlib.Data.List.TakeWhile
import RowQuery.Token

/-!
Scanning a text in pieces. A lexeme is read in the same way in front of any text that does not continue it,
so the scan of two texts one after the other is the scan of the first and then that of the second.
-/

namespace RowQuery

namespace Lexeme

/-- Whether a character after a lexeme of a kind might belong to it. -/
def continues : TokenKind → Char → Bool
  | .identifier, c => continuesName c
  | .integerLiteral, c | .realLiteral, c =>
    c.isDigit || c == '.' || c == 'e' || c == 'E' || c == 'f' || c == 'F'
  | .stringLiteral, c => c == '"' || c == '\''
  | .exclamation, c | .equal, c | .greaterThan, c => c == '='
  | .lessThan, c => c == '=' || c == '>'
  | .ampersand, c => c == '&'
  | .bar, c => c == '|'
  | _, _ => false

/-- A text that does not continue a lexeme of a kind. -/
def Ends (k : TokenKind) (next : List Char) : Prop := ∀ c, next.head? = some c → continues k c = false

/-- A text that may take the place of another one after a lexeme of a kind: it starts in the same way, or with a
character that does not belong to the lexeme. -/
def Replaces (k : TokenKind) (rest next : List Char) : Prop :=
  ∀ c, next.head? = some c → rest.head? = some c ∨ continues k c = false

theorem takeWhile_replace {p : Char → Bool} {rest next : List Char}
    (hnext : ∀ c, next.head? = some c → rest.head? = some c ∨ p c = false) {cs : List Char}
    (h : ((cs ++ rest).takeWhile p).length ≤ cs.length) :
    (cs ++ next).takeWhile p = (cs ++ rest).takeWhile p := by
  induction cs with
  | nil =>
      have hrest : rest.takeWhile p = [] := List.length_eq_zero_iff.mp (Nat.le_zero.mp h)
      cases next with
      | nil => exact hrest.symm
      | cons c next =>
          have hc : p c = false := by
            rcases hnext c rfl with hhead | hp
            · obtain ⟨ds, rfl⟩ := List.head?_eq_some_iff.mp hhead
              by_contra hp
              rw [List.takeWhile_cons, if_pos (by simpa using hp)] at hrest
              cases hrest
            · exact hp
          rw [List.nil_append, List.nil_append, hrest, List.takeWhile_cons, hc]
          rfl
  | cons c cs ih =>
      rw [List.cons_append, List.cons_append, List.takeWhile_cons, List.takeWhile_cons]
      by_cases hc : p c
      · rw [List.cons_append, List.takeWhile_cons, if_pos hc, List.length_cons, List.length_cons] at h
        rw [ih (by omega)]
      · rw [if_neg hc, if_neg hc]

theorem either_replace {second : Char} {both alone k : TokenKind} {cs rest next : List Char} {n : Nat}
    (h : either second both alone (cs ++ rest) = (.ok k, n)) (hn : n ≤ cs.length)
    (hnext : ∀ c, k = alone → next.head? = some c → rest.head? = some c ∨ c ≠ second) :
    either second both alone (cs ++ next) = (.ok k, n) := by
  cases cs with
  | cons c cs => exact h
  | nil =>
      have halone : k = alone ∧ n = 0 ∧ rest.head? ≠ some second := by
        cases rest with
        | nil =>
            cases h
            exact ⟨rfl, rfl, by simp⟩
        | cons d ds =>
            rw [List.nil_append, either] at h
            split at h
            · cases h
              cases hn
            · rename_i hd
              cases h
              exact ⟨rfl, rfl, by simpa using hd⟩
      obtain ⟨rfl, rfl, hhead⟩ := halone
      cases next with
      | nil => rfl
      | cons c next =>
          have hc : c ≠ second := by
            rintro rfl
            rcases hnext c rfl rfl with hsame | hne
            · exact hhead hsame
            · exact hne rfl
          rw [List.nil_append, either, if_neg hc]

theorem quotedLength?_pos {quote : Char} {cs : List Char} {n : Nat} (h : quotedLength? quote cs = some n) :
    0 < n := by
  fun_induction quotedLength? quote cs generalizing n with
  | case1 => cases h
  | case2 =>
      cases h
      exact Nat.one_pos
  | case3 ds ih =>
      obtain ⟨m, -, rfl⟩ := Option.map_eq_some_iff.mp h
      omega
  | case4 d ds hd =>
      cases h
      exact Nat.one_pos
  | case5 c cs hc ih =>
      obtain ⟨m, -, rfl⟩ := Option.map_eq_some_iff.mp h
      omega

theorem quotedLength?_replace {quote : Char} {rest next : List Char}
    (hnext : ∀ c, next.head? = some c → rest.head? = some c ∨ c ≠ quote) {cs : List Char} {n : Nat}
    (h : quotedLength? quote (cs ++ rest) = some n) (hn : n ≤ cs.length) :
    quotedLength? quote (cs ++ next) = some n := by
  -- a doubled delimiter takes up two characters at once
  induction hlength : cs.length using Nat.strong_induction_on generalizing cs n with
  | _ length ih =>
      have hpos := quotedLength?_pos h
      rcases cs with _ | ⟨c, cs⟩
      · rw [List.length_nil] at hn
        omega
      · rw [List.length_cons] at hn hlength
        rw [List.cons_append] at h ⊢
        unfold quotedLength? at h ⊢
        by_cases hc : c = quote
        · rw [if_pos hc] at h ⊢
          rcases cs with _ | ⟨d, cs⟩
          · have hone : n = 1 ∧ rest.head? ≠ some quote := by
              rw [List.nil_append] at h
              rcases rest with _ | ⟨d, ds⟩
              · cases h
                exact ⟨rfl, by simp⟩
              · by_cases hd : d = quote
                · simp only [hd, if_true] at h
                  obtain ⟨m, -, rfl⟩ := Option.map_eq_some_iff.mp h
                  rw [List.length_nil] at hn
                  omega
                · simp only [hd, if_false, Option.some.injEq] at h
                  exact ⟨h.symm, by simpa using hd⟩
            obtain ⟨rfl, hhead⟩ := hone
            rcases next with _ | ⟨d, next⟩
            · rfl
            · have hd : d ≠ quote := by
                rintro rfl
                rcases hnext d rfl with hsame | hne
                · exact hhead hsame
                · exact hne rfl
              simp only [List.nil_append, if_neg hd]
          · simp only [List.cons_append] at h ⊢
            by_cases hd : d = quote
            · simp only [hd, if_true] at h ⊢
              obtain ⟨m, hm, rfl⟩ := Option.map_eq_some_iff.mp h
              rw [List.length_cons] at hn hlength
              rw [ih cs.length (by omega) hm (by omega) rfl]
              rfl
            · simp only [hd, if_false] at h ⊢
              exact h
        · rw [if_neg hc] at h ⊢
          obtain ⟨m, hm, rfl⟩ := Option.map_eq_some_iff.mp h
          rw [ih cs.length (by omega) hm (by omega) rfl]
          rfl

theorem quotedLength?_le {quote : Char} {cs : List Char} {n : Nat} (h : quotedLength? quote cs = some n) :
    n ≤ cs.length := by
  fun_induction quotedLength? quote cs generalizing n with
  | case1 => cases h
  | case2 =>
      cases h
      exact Nat.le_refl _
  | case3 ds ih =>
      obtain ⟨m, hm, rfl⟩ := Option.map_eq_some_iff.mp h
      exact Nat.add_le_add_right (ih hm) 2
  | case4 d ds hd =>
      cases h
      exact Nat.succ_le_succ (Nat.zero_le _)
  | case5 c cs hc ih =>
      obtain ⟨m, hm, rfl⟩ := Option.map_eq_some_iff.mp h
      exact Nat.add_le_add_right (ih hm) 1

/-! ### Numbers -/

theorem digitCount_le (cs : List Char) : digitCount cs ≤ cs.length := (List.takeWhile_sublist _).length_le

theorem fractionLength_le {cs : List Char} {n : Nat} (h : fractionLength cs = .ok n) : n ≤ cs.length := by
  unfold fractionLength at h
  split at h
  · rename_i rest
    split at h
    · cases h
    · cases h
      have := digitCount_le rest
      rw [List.length_cons]
      omega
  · cases h
    exact Nat.zero_le _

/-- The length of the sign of an exponent. -/
def signLength : List Char → Nat
  | c :: _ => if c = '+' ∨ c = '-' then 1 else 0
  | [] => 0

theorem signLength_le (cs : List Char) : signLength cs ≤ cs.length := by
  unfold signLength
  split
  · rw [List.length_cons]
    split <;> omega
  · exact Nat.le_refl _

theorem exponentLength_of_mark {c : Char} (hc : c = 'e' ∨ c = 'E') (cs : List Char) :
    exponentLength (c :: cs) =
      if digitCount (cs.drop (signLength cs)) = 0 then .error (1 + signLength cs)
      else .ok (1 + signLength cs + digitCount (cs.drop (signLength cs))) := by
  simp only [exponentLength, if_pos hc]
  cases cs <;> rfl

/-- An exponent has digits after its sign. -/
theorem exponentLength_eq_ok {c : Char} (hc : c = 'e' ∨ c = 'E') {cs : List Char} {n : Nat} :
    exponentLength (c :: cs) = .ok n ↔
      digitCount (cs.drop (signLength cs)) ≠ 0 ∧ n = 1 + signLength cs + digitCount (cs.drop (signLength cs)) := by
  rw [exponentLength_of_mark hc]
  by_cases hzero : digitCount (cs.drop (signLength cs)) = 0
  · simp [hzero]
  · rw [if_neg hzero]
    simp only [Except.ok.injEq, ne_eq, hzero, not_false_eq_true, true_and]
    exact eq_comm

theorem exponentLength_of_not_mark {c : Char} (hc : ¬(c = 'e' ∨ c = 'E')) (cs : List Char) :
    exponentLength (c :: cs) = .ok 0 := by
  simp only [exponentLength, if_neg hc]

theorem exponentLength_le {cs : List Char} {n : Nat} (h : exponentLength cs = .ok n) : n ≤ cs.length := by
  cases cs with
  | nil =>
      cases h
      exact Nat.le_refl _
  | cons c cs =>
      by_cases hc : c = 'e' ∨ c = 'E'
      · obtain ⟨-, rfl⟩ := (exponentLength_eq_ok hc).mp h
        have hsign := signLength_le cs
        have hdigits := digitCount_le (cs.drop (signLength cs))
        rw [List.length_drop] at hdigits
        rw [List.length_cons]
        omega
      · rw [exponentLength_of_not_mark hc] at h
        cases h
        exact Nat.zero_le _

theorem suffixLength_le (cs : List Char) : suffixLength cs ≤ cs.length := by
  unfold suffixLength
  split
  · rw [List.length_cons]
    split <;> omega
  · exact Nat.le_refl _

theorem number_le {cs : List Char} {k : TokenKind} {n : Nat} (h : number cs = (.ok k, n)) :
    n ≤ cs.length := by
  simp only [number] at h
  have hwhole := digitCount_le cs
  split at h
  · cases h
  · rename_i fraction hfraction
    have hle := fractionLength_le hfraction
    split at h
    · cases h
    · rename_i exponent hexponent
      have hle' := exponentLength_le hexponent
      have hle'' := suffixLength_le (cs.drop (digitCount cs + fraction + exponent))
      simp only [List.length_drop] at hle hle' hle''
      cases h
      omega

section

variable {rest next : List Char} (hnext : Replaces .integerLiteral rest next)

include hnext

theorem digitCount_replace {cs : List Char} (h : digitCount (cs ++ rest) ≤ cs.length) :
    digitCount (cs ++ next) = digitCount (cs ++ rest) := by
  rw [digitCount, digitCount, takeWhile_replace ?_ h]
  intro c hc
  refine (hnext c hc).imp_right fun hcontinues => ?_
  simp only [continues, Bool.or_eq_false_iff] at hcontinues
  exact hcontinues.1.1.1.1.1

theorem fractionLength_replace {cs : List Char} {n : Nat} (h : fractionLength (cs ++ rest) = .ok n)
    (hn : n ≤ cs.length) : fractionLength (cs ++ next) = .ok n := by
  cases cs with
  | nil =>
      obtain rfl : n = 0 := Nat.le_zero.mp hn
      have hpoint : rest.head? ≠ some '.' := by
        intro hhead
        obtain ⟨ds, rfl⟩ := List.head?_eq_some_iff.mp hhead
        simp only [List.nil_append, fractionLength] at h
        split at h
        · cases h
        · simp only [Except.ok.injEq] at h
          omega
      cases next with
      | nil => rfl
      | cons c next =>
          have hc : c ≠ '.' := by
            rintro rfl
            rcases hnext '.' rfl with hsame | hcontinues
            · exact hpoint hsame
            · exact absurd hcontinues (by decide)
          simp [fractionLength, hc]
  | cons c cs =>
      by_cases hc : c = '.'
      · subst hc
        simp only [List.cons_append, fractionLength] at h ⊢
        split at h
        · cases h
        · rename_i hdigits
          cases h
          rw [List.length_cons] at hn
          rw [digitCount_replace hnext (by omega), if_neg hdigits]
      · simpa [fractionLength, hc] using h

theorem suffixLength_replace {cs : List Char} (h : suffixLength (cs ++ rest) ≤ cs.length) :
    suffixLength (cs ++ next) = suffixLength (cs ++ rest) := by
  cases cs with
  | cons c cs => rfl
  | nil =>
      have hrest : suffixLength rest = 0 := Nat.le_zero.mp h
      rw [List.nil_append, List.nil_append, hrest]
      cases next with
      | nil => rfl
      | cons c next =>
          have hc : ¬(c = 'f' ∨ c = 'F') := by
            intro hc
            rcases hnext c rfl with hsame | hcontinues
            · obtain ⟨ds, rfl⟩ := List.head?_eq_some_iff.mp hsame
              simp [suffixLength, hc] at hrest
            · rcases hc with rfl | rfl <;> exact absurd hcontinues (by decide)
          rw [suffixLength, if_neg hc]

/-- An exponent that is complete does not go on. -/
theorem exponentLength_replace {cs : List Char} {n : Nat} (h : exponentLength (cs ++ rest) = .ok n)
    (hn : n ≤ cs.length) : exponentLength (cs ++ next) = .ok n := by
  cases cs with
  | nil =>
      obtain rfl : n = 0 := Nat.le_zero.mp hn
      cases next with
      | nil => rfl
      | cons c next =>
          have hc : ¬(c = 'e' ∨ c = 'E') := by
            intro hc
            rcases hnext c rfl with hsame | hcontinues
            · obtain ⟨ds, rfl⟩ := List.head?_eq_some_iff.mp hsame
              have hlength := ((exponentLength_eq_ok hc).mp h).2
              omega
            · rcases hc with rfl | rfl <;> exact absurd hcontinues (by decide)
          exact exponentLength_of_not_mark hc next
  | cons c cs =>
      by_cases hc : c = 'e' ∨ c = 'E'
      · rw [List.cons_append] at h ⊢
        obtain ⟨hdigits, hlength⟩ := (exponentLength_eq_ok hc).mp h
        rw [List.length_cons] at hn
        have hsign : signLength (cs ++ next) = signLength (cs ++ rest) := by
          cases cs with
          | nil =>
              rw [List.length_nil] at hn
              omega
          | cons d cs => rfl
        have hdrop : ∀ ds : List Char, (cs ++ ds).drop (signLength (cs ++ rest)) =
            cs.drop (signLength (cs ++ rest)) ++ ds := fun _ => List.drop_append_of_le_length (by omega)
        rw [hdrop] at hdigits hlength
        have hcount := digitCount_replace hnext
          (show digitCount (cs.drop (signLength (cs ++ rest)) ++ rest) ≤ (cs.drop (signLength (cs ++ rest))).length by
            rw [List.length_drop]
            omega)
        refine (exponentLength_eq_ok hc).mpr ?_
        rw [hsign, hdrop, hcount]
        exact ⟨hdigits, hlength⟩
      · rw [List.cons_append, exponentLength_of_not_mark hc] at h ⊢
        exact h

theorem number_replace {cs : List Char} {k : TokenKind} {n : Nat} (h : number (cs ++ rest) = (.ok k, n))
    (hn : n ≤ cs.length) : number (cs ++ next) = (.ok k, n) := by
  simp only [number] at h ⊢
  split at h
  · cases h
  · rename_i fraction hfraction
    split at h
    · cases h
    · rename_i exponent hexponent
      cases h
      have hdigits := digitCount_replace hnext (show digitCount (cs ++ rest) ≤ cs.length by omega)
      have hdrop : ∀ {m : Nat} {ds : List Char}, m ≤ cs.length → (cs ++ ds).drop m = cs.drop m ++ ds :=
        fun hm => List.drop_append_of_le_length hm
      rw [hdrop (by omega)] at hfraction hexponent
      rw [hdrop (by omega)] at hn ⊢
      rw [hdigits, hdrop (by omega), fractionLength_replace hnext hfraction (by rw [List.length_drop]; omega)]
      simp only [hdrop (show digitCount (cs ++ rest) + fraction ≤ cs.length by omega),
        exponentLength_replace hnext hexponent (by rw [List.length_drop]; omega)]
      rw [hdrop (by omega), suffixLength_replace hnext (by rw [List.length_drop]; omega)]

end

/-! ### Lexemes -/

theorem kind_number {cs : List Char} {k : TokenKind} {n : Nat} (h : number cs = (.ok k, n)) :
    k = .integerLiteral ∨ k = .realLiteral := by
  simp only [number] at h
  split at h
  · cases h
  · split at h
    · cases h
    · cases h
      split
      · exact Or.inl rfl
      · exact Or.inr rfl

/-- A lexeme is read in the same way whatever comes after the character that ends it. -/
theorem read_replace {c : Char} {cs rest next : List Char} {k : TokenKind} {n : Nat}
    (h : read c (cs ++ rest) = (.ok k, n)) (hn : n ≤ cs.length) (hnext : Replaces k rest next) :
    read c (cs ++ next) = (.ok k, n) := by
  have heither : ∀ {second : Char} {both alone : TokenKind}, continues alone second = true →
      either second both alone (cs ++ rest) = (.ok k, n) → either second both alone (cs ++ next) = (.ok k, n) := by
    intro second both alone hcontinues h
    refine either_replace h hn ?_
    rintro d rfl hd
    refine (hnext d hd).imp_right ?_
    rintro hfalse rfl
    rw [hfalse] at hcontinues
    cases hcontinues
  unfold read at h ⊢
  split at h
  case h_1 | h_3 | h_14 | h_15 | h_19 => exact heither rfl h
  case h_13 =>
    -- `<` may be followed by either of two characters
    cases cs with
    | cons d cs =>
        by_cases heq : d = '='
        · simpa [heq] using h
        · by_cases hgreater : d = '>'
          · simpa [hgreater] using h
          · simpa [heq, hgreater] using h
    | nil =>
        obtain rfl : n = 0 := Nat.le_zero.mp hn
        rw [List.nil_append] at h
        have halone : k = .lessThan ∧ rest.head? ≠ some '=' ∧ rest.head? ≠ some '>' := by
          split at h
          · cases h
          · cases h
          · rename_i hequal hgreater
            cases h
            refine ⟨rfl, fun hhead => ?_, fun hhead => ?_⟩
            · obtain ⟨ds, hds⟩ := List.head?_eq_some_iff.mp hhead
              exact hequal ds hds
            · obtain ⟨ds, hds⟩ := List.head?_eq_some_iff.mp hhead
              exact hgreater ds hds
        obtain ⟨rfl, hequal, hgreater⟩ := halone
        cases next with
        | nil => rfl
        | cons d next =>
            have hd : d ≠ '=' ∧ d ≠ '>' := by
              rcases hnext d rfl with hsame | hfalse
              · rw [hsame] at hequal hgreater
                exact ⟨fun hd => hequal (congrArg some hd), fun hd => hgreater (congrArg some hd)⟩
              · simpa only [continues, Bool.or_eq_false_iff, beq_eq_false_iff_ne] using hfalse
            simp [hd]
  case h_20 =>
    by_cases hquote : c = '"' ∨ c = '\''
    · rw [if_pos hquote] at h ⊢
      cases hlength : quotedLength? c (cs ++ rest) with
      | none => simp [hlength] at h
      | some m =>
          rw [hlength] at h
          cases h
          rw [quotedLength?_replace ?_ hlength hn]
          intro d hd
          refine (hnext d hd).imp_right ?_
          rintro hfalse rfl
          simp only [continues, Bool.or_eq_false_iff, beq_eq_false_iff_ne] at hfalse
          exact hquote.elim hfalse.1 hfalse.2
    · rw [if_neg hquote] at h ⊢
      by_cases hname : startsName c
      · rw [if_pos hname] at h ⊢
        cases h
        have hends : ∀ d, next.head? = some d → rest.head? = some d ∨ continuesName d = false := hnext
        rw [takeWhile_replace hends hn]
      · rw [if_neg hname] at h ⊢
        by_cases hdigit : c.isDigit
        · rw [if_pos hdigit] at h ⊢
          have hreplaces : Replaces .integerLiteral rest next := by
            rcases kind_number h with rfl | rfl
            · exact hnext
            · exact hnext
          exact number_replace hreplaces h hn
        · rw [if_neg hdigit] at h
          cases h
  all_goals exact h

/-- A name is as long as there are characters to continue it. -/
theorem read_of_startsName {c : Char} (hc : startsName c) (cs : List Char) :
    read c cs = (.ok .identifier, (cs.takeWhile continuesName).length) := by
  unfold read
  split
  case h_20 =>
    have hquote : ¬(c = '"' ∨ c = '\'') := by
      rintro (rfl | rfl) <;> exact absurd hc (by decide)
    rw [if_neg hquote, if_pos hc]
  all_goals exact absurd hc (by decide)

theorem either_le {second : Char} {both alone k : TokenKind} {cs : List Char} {n : Nat}
    (h : either second both alone cs = (.ok k, n)) : n ≤ cs.length := by
  unfold either at h
  split at h
  · split at h <;> cases h
    · exact Nat.succ_le_succ (Nat.zero_le _)
    · exact Nat.zero_le _
  · cases h
    exact Nat.le_refl _

/-- A lexeme is within its text, and is never the end of it. -/
theorem read_ok {c : Char} {cs : List Char} {k : TokenKind} {n : Nat} (h : read c cs = (.ok k, n)) :
    n ≤ cs.length ∧ k ≠ .done := by
  have heither : ∀ {second both alone}, both ≠ .done → alone ≠ .done →
      either second both alone cs = (.ok k, n) → n ≤ cs.length ∧ k ≠ .done := by
    intro second both alone hboth halone h
    refine ⟨either_le h, ?_⟩
    unfold either at h
    split at h
    · split at h <;> cases h <;> assumption
    · cases h
      assumption
  unfold read at h
  split at h
  case h_1 | h_3 | h_14 | h_15 | h_19 => exact heither (by decide) (by decide) h
  case h_13 =>
    split at h <;> cases h
    · exact ⟨Nat.succ_le_succ (Nat.zero_le _), by decide⟩
    · exact ⟨Nat.succ_le_succ (Nat.zero_le _), by decide⟩
    · exact ⟨Nat.zero_le _, by decide⟩
  case h_20 =>
    split at h
    · split at h
      · rename_i hlength
        cases h
        exact ⟨quotedLength?_le hlength, by decide⟩
      · cases h
    · split at h
      · cases h
        exact ⟨(List.takeWhile_sublist _).length_le, by decide⟩
      · split at h
        · refine ⟨number_le h, ?_⟩
          rcases kind_number h with rfl | rfl <;> decide
        · cases h
  all_goals
    cases h
    exact ⟨Nat.zero_le _, by decide⟩

/-- A lexeme is read in the same way if the text goes on after it, unless it is the last one and is continued. -/
theorem read_append {c : Char} {cs next : List Char} {k : TokenKind} {n : Nat}
    (h : read c cs = (.ok k, n)) (hnext : cs.drop n = [] → Ends k next) : read c (cs ++ next) = (.ok k, n) := by
  have hn := (read_ok h).1
  rw [← List.take_append_drop n cs] at h ⊢
  rw [List.append_assoc]
  refine read_replace h (by rw [List.length_take]; omega) fun d hd => ?_
  cases hdrop : cs.drop n with
  | nil =>
      rw [hdrop] at hd
      exact Or.inr (hnext hdrop d hd)
  | cons b bs =>
      rw [hdrop] at hd
      exact Or.inl hd

/-- A lexeme is read from its own characters. -/
theorem read_take {c : Char} {cs : List Char} {k : TokenKind} {n : Nat} (h : read c cs = (.ok k, n)) :
    read c (cs.take n) = (.ok k, (cs.take n).length) := by
  have hlength := List.length_take_of_le (read_ok h).1
  have hnil : Replaces k (cs.drop n) [] := fun c hc => by cases hc
  rw [← List.take_append_drop n cs] at h
  have hread := read_replace h (Nat.le_of_eq hlength.symm) hnil
  rw [List.append_nil] at hread
  rw [hlength, hread]

/-- The code points of blank characters. -/
def blankCodes : List Nat := Text.blankTable.flatMap fun (first, size) => List.range' first size

theorem mem_blankCodes {c : Char} (h : Text.isBlank c) : c.toNat ∈ blankCodes := by
  obtain ⟨range, hrange, hc⟩ := List.any_eq_true.mp h
  simp only [Bool.and_eq_true, decide_eq_true_eq] at hc
  exact List.mem_flatMap.mpr ⟨range, hrange, List.mem_range'_1.mpr hc⟩

/-- Two tables without a code point in common. -/
def disjoint (r s : Text.Ranges) : Bool :=
  r.all fun (a, m) => s.all fun (b, n) => a + m ≤ b || b + n ≤ a

theorem not_contains_of_disjoint {r s : Text.Ranges} (h : disjoint r s) {c : Char} (hc : s.contains c) :
    r.contains c = false := by
  rw [Text.Ranges.contains, List.any_eq_false]
  rintro ⟨a, m⟩ hr
  obtain ⟨⟨b, n⟩, hs, hin⟩ := List.any_eq_true.mp hc
  have hapart := List.all_eq_true.mp (List.all_eq_true.mp h _ hr) _ hs
  simp only [Bool.or_eq_true, Bool.and_eq_true, decide_eq_true_eq] at hapart hin ⊢
  omega

/-- No blank character stands in a name. -/
theorem continuesName_blank {c : Char} (h : Text.isBlank c) : continuesName c = false := by
  have hascii : ∀ n ∈ blankCodes, n < 128 → continuesName (Char.ofNat n) = false := by decide +kernel
  by_cases hc : c.toNat < 128
  · have := hascii _ (mem_blankCodes h) hc
    rwa [Char.ofNat_toNat] at this
  · have hunder : (c == '_') = false := by
      rw [beq_eq_false_iff_ne]
      rintro rfl
      exact hc (by decide)
    have hlow : disjoint Text.alphabeticLow Text.blankTable := by decide +kernel
    have hmiddle : disjoint Text.alphabeticMiddle Text.blankTable := by decide +kernel
    have hhigh : disjoint Text.alphabeticHigh Text.blankTable := by decide +kernel
    have hnumeral : disjoint Text.numeralTable Text.blankTable := by decide +kernel
    simp [continuesName, Text.isLetterOrNumeral, Text.isLetter, Text.isNumeral, hc, hunder,
      not_contains_of_disjoint hlow h, not_contains_of_disjoint hmiddle h,
      not_contains_of_disjoint hhigh h, not_contains_of_disjoint hnumeral h]

/-- No name starts with a blank character. -/
theorem startsName_blank {c : Char} (h : Text.isBlank c) : startsName c = false := by
  have hname := continuesName_blank h
  simp only [continuesName, Text.isLetterOrNumeral, Bool.or_eq_false_iff] at hname
  rw [Bool.eq_false_iff]
  intro hc
  simp only [startsName, hname.1.1, hname.2, Bool.false_or, Bool.or_false, beq_iff_eq] at hc
  subst hc
  exact absurd h (by decide)

/-- No name starts with a digit. -/
theorem startsName_digit {c : Char} (h : c.isDigit) : startsName c = false := by
  have hall : ∀ n ∈ List.range' 48 10, startsName (Char.ofNat n) = false := by decide
  have hmem : c.toNat ∈ List.range' 48 10 := by
    simp only [Char.isDigit, Bool.and_eq_true, decide_eq_true_eq, ge_iff_le, UInt32.le_iff_toNat_le] at h
    have hlow : 48 ≤ c.toNat := h.1
    have hhigh : c.toNat ≤ 57 := h.2
    exact List.mem_range'_1.mpr (by omega)
  have := hall _ hmem
  rwa [Char.ofNat_toNat] at this

/-- Blank space continues no lexeme. -/
theorem continues_blank (k : TokenKind) {c : Char} (h : Text.isBlank c) : continues k c = false := by
  have hall : k ≠ .identifier → ∀ n ∈ blankCodes, continues k (Char.ofNat n) = false := by
    intro hk
    cases k with
    | identifier => exact absurd rfl hk
    | _ => decide +kernel
  by_cases hk : k = .identifier
  · rw [hk]
    exact continuesName_blank h
  · have hc := hall hk _ (mem_blankCodes h)
    rwa [Char.ofNat_toNat] at hc

end Lexeme

/-! ### Texts -/

/-- A kind of token and its characters. -/
structure Lexeme where
  kind : TokenKind
  text : String

def Token.lexeme (t : Token) : Lexeme := ⟨t.kind, t.text⟩

/-- A text that spells lexemes, with blank space anywhere between them. -/
inductive Spells : List Lexeme → List Char → Prop
  | nil {blank : List Char} (h : ∀ c ∈ blank, Text.isBlank c) : Spells [] blank
  | cons {blank cs : List Char} {l : Lexeme} {ls : List Lexeme} (h : ∀ c ∈ blank, Text.isBlank c)
      (later : Spells ls cs) : Spells (l :: ls) (blank ++ (l.text.toList ++ cs))

namespace Lexeme

/-- The characters of a lexeme make up exactly one token. -/
def Whole (l : Lexeme) : Prop :=
  ∃ c cs, l.text.toList = c :: cs ∧ Text.isBlank c = false ∧ read c cs = (.ok l.kind, cs.length)

/-- Two lexemes that stay apart without blank space between them. -/
def Apart (l m : Lexeme) : Prop := Ends l.kind m.text.toList

end Lexeme

namespace Cursor

theorem skipBlank_append {blank cs : List Char} {c : Char} (hblank : ∀ c ∈ blank, Text.isBlank c)
    (hc : Text.isBlank c = false) (pos : Nat) :
    skipBlank ⟨pos, blank ++ c :: cs⟩ = ⟨pos + blank.length, c :: cs⟩ := by
  have htake : (blank ++ c :: cs).takeWhile Text.isBlank = blank := by
    rw [List.takeWhile_append_of_pos hblank, List.takeWhile_cons, hc]
    exact List.append_nil blank
  have hdrop : (blank ++ c :: cs).dropWhile Text.isBlank = c :: cs := by
    rw [List.dropWhile_append_of_pos hblank, List.dropWhile_cons, hc]
    rfl
  rw [skipBlank, htake, hdrop]

/-- A scan is one of what comes after blank space, lexeme by lexeme. -/
theorem scan_eq (k : Cursor) :
    scan k = match k.skipBlank with
      | ⟨pos, []⟩ => ⟨[], .finished pos⟩
      | ⟨pos, c :: cs⟩ =>
        match Lexeme.read c cs with
        | (.ok kind, n) =>
          ⟨⟨kind, String.ofList (c :: cs.take n), pos⟩ :: (scan ⟨pos + n + 1, cs.drop n⟩).tokens,
            (scan ⟨pos + n + 1, cs.drop n⟩).stop⟩
        | (.error (fault, offset), _) => ⟨[], .failed ⟨fault, pos + offset⟩⟩ := by
  rw [scan]
  rcases k.skipBlank with ⟨pos, _ | ⟨c, cs⟩⟩
  · rfl
  · simp only
    rcases Lexeme.read c cs with ⟨⟨fault, offset⟩ | kind, n⟩ <;> rfl

theorem scan_of_nil {k : Cursor} (h : k.skipBlank.rest = []) : scan k = ⟨[], .finished k.skipBlank.pos⟩ := by
  have hskip : k.skipBlank = ⟨k.skipBlank.pos, []⟩ := by rw [← h]
  rw [scan_eq, hskip]

theorem scan_of_cons {k : Cursor} {pos : Nat} {c : Char} {cs : List Char} {kind : TokenKind} {n : Nat}
    (h : k.skipBlank = ⟨pos, c :: cs⟩) (hread : Lexeme.read c cs = (.ok kind, n)) :
    scan k = ⟨⟨kind, String.ofList (c :: cs.take n), pos⟩ :: (scan ⟨pos + n + 1, cs.drop n⟩).tokens,
      (scan ⟨pos + n + 1, cs.drop n⟩).stop⟩ := by
  rw [scan_eq, h]
  simp only [hread]

theorem skipBlank_of_blank {blank : List Char} (hblank : ∀ c ∈ blank, Text.isBlank c) (pos : Nat)
    (cs : List Char) : skipBlank ⟨pos, blank ++ cs⟩ = skipBlank ⟨pos + blank.length, cs⟩ := by
  simp only [skipBlank, List.takeWhile_append_of_pos hblank, List.dropWhile_append_of_pos hblank,
    List.length_append, Nat.add_assoc]

/-- The text of a place is blank space and what comes after it. -/
theorem exists_blank (k : Cursor) : ∃ blank, (∀ c ∈ blank, Text.isBlank c) ∧
    k.rest = blank ++ k.skipBlank.rest ∧ k.skipBlank.pos = k.pos + blank.length ∧
    ∀ c, k.skipBlank.rest.head? = some c → Text.isBlank c = false := by
  refine ⟨k.rest.takeWhile Text.isBlank, fun c hc => List.mem_takeWhile_imp hc,
    List.takeWhile_append_dropWhile.symm, rfl, ?_⟩
  intro c hc
  have hnot := List.head?_dropWhile_not Text.isBlank k.rest
  change (k.rest.dropWhile Text.isBlank).head? = some c at hc
  rwa [hc] at hnot

/-- The text of a place is blank space, some characters that start with one that is not blank, and what comes after
them. -/
theorem exists_front {k : Cursor} {pos : Nat} {c : Char} {cs : List Char} {n : Nat}
    (hskip : k.skipBlank = ⟨pos, c :: cs⟩) (hn : n ≤ cs.length) :
    ∃ blank, (∀ c ∈ blank, Text.isBlank c) ∧ Text.isBlank c = false ∧
      k.rest = (blank ++ c :: cs.take n) ++ cs.drop n ∧ pos = k.pos + blank.length ∧
      (c :: cs.take n).length = n + 1 := by
  obtain ⟨blank, hblank, hrest, hpos, hhead⟩ := k.exists_blank
  rw [hskip] at hrest hpos hhead
  refine ⟨blank, hblank, hhead c rfl, ?_, hpos, ?_⟩
  · rw [hrest, List.append_assoc, List.cons_append, List.take_append_drop]
  · rw [List.length_cons, List.length_take_of_le hn]

/-- An induction along the lexemes of a text. -/
theorem scan_induction {P : Cursor → Prop}
    (h : ∀ k, (∀ pos c cs kind n, k.skipBlank = ⟨pos, c :: cs⟩ → Lexeme.read c cs = (.ok kind, n) →
      P ⟨pos + n + 1, cs.drop n⟩) → P k) : ∀ k, P k := by
  intro k
  induction hlength : k.rest.length using Nat.strong_induction_on generalizing k with
  | _ length ih =>
      refine h k fun pos c cs kind n hskip _ => ih _ ?_ _ rfl
      have hle : k.skipBlank.rest.length ≤ k.rest.length := (List.dropWhile_sublist _).length_le
      rw [hskip, List.length_cons] at hle
      rw [List.length_drop]
      omega

/-- Every token is scanned from its own characters. -/
theorem whole_lexeme : ∀ k : Cursor, ∀ t ∈ (scan k).tokens, t.lexeme.Whole := by
  refine scan_induction fun k ih => ?_
  rw [scan_eq]
  rcases hskip : k.skipBlank with ⟨pos, _ | ⟨c, cs⟩⟩
  · simp
  · rcases hread : Lexeme.read c cs with ⟨⟨fault, offset⟩ | kind, n⟩
    · simp [hread]
    · obtain ⟨-, -, hc, -⟩ := exists_front hskip (Lexeme.read_ok hread).1
      simp only [hread]
      refine List.forall_mem_cons.mpr ⟨?_, ih pos c cs kind n hskip hread⟩
      exact ⟨c, cs.take n, String.toList_ofList, hc, Lexeme.read_take hread⟩

theorem scan_tokens_proper (k : Cursor) : ∀ t ∈ (scan k).tokens, t.kind ≠ .done := by
  intro t ht
  obtain ⟨c, cs, -, -, hread⟩ := whole_lexeme k t ht
  exact (Lexeme.read_ok hread).2

/-- Texts one after the other are scanned one after the other, if the second one does not continue the last lexeme
of the first. -/
theorem scan_append {next : List Char} : ∀ k : Cursor,
    (∀ t ∈ (scan k).tokens.getLast?, Lexeme.Ends t.kind next) → (∃ final, (scan k).stop = .finished final) →
    scan ⟨k.pos, k.rest ++ next⟩ =
      ⟨(scan k).tokens ++ (scan ⟨k.pos + k.rest.length, next⟩).tokens,
        (scan ⟨k.pos + k.rest.length, next⟩).stop⟩ := by
  refine scan_induction fun k ih hends hstop => ?_
  obtain ⟨blank, hblank, hrest, hpos, hhead⟩ := k.exists_blank
  rw [scan_eq k] at hends hstop ⊢
  rcases hskip : k.skipBlank with ⟨pos, _ | ⟨c, cs⟩⟩
  · rw [hskip, List.append_nil] at hrest
    have hscan : scan ⟨k.pos, blank ++ next⟩ = scan ⟨k.pos + blank.length, next⟩ := by
      rw [scan_eq, scan_eq, skipBlank_of_blank hblank]
    simp only [hrest, hscan, List.nil_append]
  · rcases hread : Lexeme.read c cs with ⟨⟨fault, offset⟩ | kind, n⟩
    · simp [hskip, hread] at hstop
    · simp only [hskip, hread] at hends hstop hrest hpos hhead ⊢
      have hle := (Lexeme.read_ok hread).1
      have hfirst : cs.drop n = [] → Lexeme.Ends kind next := by
        intro hnil
        have hnone : (scan ⟨pos + n + 1, cs.drop n⟩).tokens = [] := by rw [hnil, scan_of_nil rfl]
        rw [hnone] at hends
        exact hends _ rfl
      have hlater : ∀ t ∈ (scan ⟨pos + n + 1, cs.drop n⟩).tokens.getLast?, Lexeme.Ends t.kind next := by
        intro t ht
        refine hends t ?_
        rw [List.getLast?_cons, Option.mem_def.mp ht]
        rfl
      have hskip' : skipBlank ⟨k.pos, blank ++ c :: (cs ++ next)⟩ = ⟨pos, c :: (cs ++ next)⟩ := by
        rw [skipBlank_append hblank (hhead c rfl), hpos]
      have hlength : pos + n + 1 + (cs.drop n).length = k.pos + k.rest.length := by
        rw [hrest, hpos, List.length_drop, List.length_append, List.length_cons]
        omega
      rw [hrest, List.append_assoc, List.cons_append, scan_of_cons hskip' (Lexeme.read_append hread hfirst),
        List.take_append_of_le_length hle, List.drop_append_of_le_length hle,
        ih pos c cs kind n hskip hread hlater hstop, hlength, hrest]
      rfl

end Cursor

/-- A lexeme that is one token is scanned into it. -/
theorem Lexeme.Whole.scan {l : Lexeme} (h : l.Whole) :
    RowQuery.scan l.text = ⟨[⟨l.kind, l.text, 0⟩], .finished l.text.length⟩ := by
  obtain ⟨c, cs, htext, hc, hread⟩ := h
  have hskip : Cursor.skipBlank ⟨0, [] ++ c :: cs⟩ = _ := Cursor.skipBlank_append (by simp) hc 0
  have hlength : l.text.length = cs.length + 1 := by rw [← String.length_toList, htext, List.length_cons]
  have hend : Cursor.scan ⟨cs.length + 1, []⟩ = ⟨[], .finished (cs.length + 1)⟩ := Cursor.scan_of_nil rfl
  have hscan := Cursor.scan_of_cons hskip hread
  rw [List.take_length, List.drop_length, ← htext, String.ofList_toList] at hscan
  rw [RowQuery.scan, hlength]
  simpa [hend] using hscan

namespace Spells

/-- What comes after a lexeme in a text does not continue it. -/
theorem ends {ls : List Lexeme} {cs : List Char} (h : Spells ls cs) {k : TokenKind}
    (hfirst : ∀ l, ls.head? = some l → l.text ≠ "" ∧ Lexeme.Ends k l.text.toList) : Lexeme.Ends k cs := by
  intro c hc
  have hblank : ∀ {blank cs : List Char}, (∀ c ∈ blank, Text.isBlank c) →
      (blank ++ cs).head? = some c → Lexeme.continues k c = false ∨ (blank = [] ∧ cs.head? = some c) := by
    intro blank cs hblank hc
    cases blank with
    | nil => exact Or.inr ⟨rfl, hc⟩
    | cons b blank =>
        cases hc
        exact Or.inl (Lexeme.continues_blank k (hblank _ List.mem_cons_self))
  cases h with
  | nil h =>
      rw [← List.append_nil cs] at hc
      rcases hblank h hc with hk | ⟨-, hnil⟩
      · exact hk
      · cases hnil
  | @cons blank cs l ls h later =>
      rcases hblank h hc with hk | ⟨-, hlexeme⟩
      · exact hk
      · obtain ⟨hne, hends⟩ := hfirst l rfl
        refine hends c ?_
        cases hl : l.text.toList with
        | nil => exact absurd (String.toList_eq_nil_iff.mp hl) hne
        | cons d ds =>
            rw [hl] at hlexeme
            exact hlexeme

/-- A text that spells whole lexemes, next to each other only if they stay apart, is scanned into them. -/
theorem scan {ls : List Lexeme} {cs : List Char} (h : Spells ls cs) (hwhole : ∀ l ∈ ls, l.Whole)
    (hapart : ls.IsChain Lexeme.Apart) (pos : Nat) :
    (Cursor.scan ⟨pos, cs⟩).tokens.map Token.lexeme = ls ∧
      ∃ final, (Cursor.scan ⟨pos, cs⟩).stop = .finished final := by
  induction h generalizing pos with
  | @nil blank h =>
      have hskip : (Cursor.skipBlank ⟨pos, blank⟩).rest = [] := List.dropWhile_eq_nil_iff.mpr h
      rw [Cursor.scan_of_nil hskip]
      exact ⟨rfl, _, rfl⟩
  | @cons blank cs l ls h later ih =>
      obtain ⟨c, ds, htext, hc, hread⟩ := hwhole l List.mem_cons_self
      have hends : Lexeme.Ends l.kind cs := by
        refine later.ends fun m hm => ⟨?_, ?_⟩
        · obtain ⟨d, es, hm', -, -⟩ := hwhole m (List.mem_cons_of_mem _ (List.mem_of_mem_head? hm))
          rintro hempty
          simp [hempty] at hm'
        · exact hapart.rel_head? hm
      have hskip : Cursor.skipBlank ⟨pos, blank ++ c :: (ds ++ cs)⟩ = _ := Cursor.skipBlank_append h hc pos
      have hscan := Cursor.scan_of_cons hskip (Lexeme.read_append hread fun _ => hends)
      rw [List.take_left, List.drop_left] at hscan
      rw [htext, List.cons_append, hscan]
      obtain ⟨htokens, hstop⟩ := ih (fun m hm => hwhole m (List.mem_cons_of_mem _ hm)) hapart.tail _
      refine ⟨?_, hstop⟩
      rw [List.map_cons, htokens, ← htext]
      simp [Token.lexeme]

end Spells

end RowQuery
