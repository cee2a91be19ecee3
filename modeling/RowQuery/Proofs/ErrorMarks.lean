import RowQuery.Command.Run
import RowQuery.Proofs.ErrorPlaces

/-!
The mark under an error. It stands as far to the right as there are characters whose place in the encoded text is
before the position of the error, but that position counts characters and not bytes. A character takes one byte or
more, so the mark is never too far to the right, and it is under the character at the position exactly if the
characters up to the last but one before it take one byte each.
-/

namespace RowQuery

theorem utf8Size_eq_one {c : Char} : c.utf8Size = 1 ↔ c.toNat < 128 := by
  rw [Char.utf8Size_eq_one_iff, UInt32.le_iff_toNat_le]
  exact Nat.lt_succ_iff.symm

namespace Reporting

theorem caretOffset_le (position start : Nat) (cs : List Char) : caretOffset position start cs ≤ position - start := by
  induction cs generalizing start with
  | nil => exact Nat.zero_le _
  | cons c cs ih =>
      have hsize := c.utf8Size_pos
      have hle := ih (start + c.utf8Size)
      rw [caretOffset]
      split
      · omega
      · exact Nat.zero_le _

/-- So many characters are counted as the position is away, exactly if all of them up to the last but one take one
byte. -/
theorem caretOffset_eq_iff {n : Nat} {cs : List Char} (hn : n ≤ cs.length) (start : Nat) :
    caretOffset (start + n) start cs = n ↔ ∀ c ∈ cs.take (n - 1), c.utf8Size = 1 := by
  induction cs generalizing n start with
  | nil =>
      obtain rfl : n = 0 := Nat.le_zero.mp hn
      simp [caretOffset]
  | cons c cs ih =>
      cases n with
      | zero => simp [caretOffset]
      | succ n =>
          have hle := caretOffset_le (start + (n + 1)) (start + c.utf8Size) cs
          have hsize := c.utf8Size_pos
          rw [caretOffset, if_pos (by omega), Nat.add_right_cancel_iff, Nat.add_sub_cancel]
          cases n with
          | zero =>
              -- there is no character before the last one
              exact iff_of_true (by omega) (by simp)
          | succ n =>
              rw [List.take_succ_cons, List.forall_mem_cons]
              by_cases hone : c.utf8Size = 1
              · have hplace : start + 1 + (n + 1) = start + (n + 1 + 1) := by omega
                have hrest := ih (n := n + 1) (Nat.le_of_succ_le_succ hn) (start + 1)
                rw [hplace, Nat.add_sub_cancel] at hrest
                rw [hone, hrest]
                exact (and_iff_right rfl).symm
              · exact iff_of_false (by omega) fun h => hone h.1

/-- The report on an error in lines of text: the message, the expression, and the mark after so many spaces. -/
theorem compileFailure_text {r : Reporting} (hr : r.output = .text ∧ r.quiet = false) (shapes : Shapes) (text : String)
    (e : CompileError) :
    (r.compileFailure shapes text e).stderr = "error: " ++ e.message shapes ++ "\n  " ++ text ++ "\n  " ++
      String.ofList (List.replicate (caretOffset e.position 0 text.toList) ' ') ++ "^" ++ "\n" := by
  obtain ⟨output, quiet⟩ := r
  obtain ⟨rfl, rfl⟩ := hr
  rfl

end Reporting

open Environment

/-- The mark under an error of a text. Between the margin and the mark there are no more spaces than the error has
characters before it, and just as many exactly if the characters up to the last but one before it are of one byte. -/
theorem mark_under_error {env : Environment} {args : List Argument} {text : String} {shapes : Shapes} {e : CompileError}
    (he : (∃ decls result, ((env.compile decls result text args).exec shapes).1 = .error e) ∨
      ∃ element, ((env.compileOrdering element text args).exec shapes).1 = .error e)
    {r : Reporting} (hr : r.output = .text ∧ r.quiet = false) (made : Shapes) :
    ∃ n, (r.compileFailure made text e).stderr = "error: " ++ e.message made ++ "\n  " ++ text ++ "\n  " ++
        String.ofList (List.replicate n ' ') ++ "^" ++ "\n" ∧
      n ≤ e.position ∧ (n = e.position ↔ ∀ c ∈ text.toList.take (e.position - 1), c.toNat < 128) := by
  have hlength : e.position ≤ text.toList.length := by
    rw [String.length_toList]
    rcases he with ⟨_, _, h⟩ | ⟨_, h⟩
    · exact (compile_locates h).le_length
    · exact (compileOrdering_locates h).le_length
  refine ⟨_, Reporting.compileFailure_text hr made text e, Reporting.caretOffset_le _ 0 _, ?_⟩
  have hiff := Reporting.caretOffset_eq_iff hlength 0
  rw [Nat.zero_add] at hiff
  simp only [hiff, utf8Size_eq_one]

/-- A character of two bytes right before the end, where the last quote is missed, does not move the mark. -/
theorem mark_under_error_unterminated :
    let env : Environment := ⟨.empty, .empty⟩
    ∃ e, ((env.compileProjection .int32 "'é" []).exec .empty).1 = .error e ∧
      ((⟨.text, false⟩ : Reporting).compileFailure .empty "'é" e).stderr =
        "error: " ++ e.message .empty ++ "\n  " ++ "'é" ++ "\n  " ++ "  " ++ "^" ++ "\n" := by
  intro env
  have hfails : (failure? ((env.compileProjection .int32 "'é" []).exec .empty).1).any (·.position == 2) := by
    decide +kernel
  obtain ⟨e, he, hpos⟩ := failure?_any.mp hfails
  rw [beq_iff_eq] at hpos
  obtain ⟨n, hreport, -, hplace⟩ := mark_under_error (Or.inl ⟨_, _, he⟩) (r := ⟨.text, false⟩) ⟨rfl, rfl⟩ .empty
  have hfront : "'é".toList.take (e.position - 1) = ['\''] := by
    rw [hpos]
    decide
  have hquote : ∀ c ∈ "'é".toList.take (e.position - 1), c.toNat < 128 := by
    rw [hfront]
    exact List.forall_mem_singleton.mpr (by decide)
  rw [hplace.mpr hquote, hpos] at hreport
  exact ⟨e, he, hreport⟩

/-- After a character of two bytes, the mark under the error stands one place too far to the left. -/
theorem mark_under_error_displaced :
    let env : Environment := ⟨.empty, .empty⟩
    ∃ e, ((env.compilePredicate .int32 "'é' == x" []).exec .empty).1 = .error e ∧ e.position = 7 ∧
      ((⟨.text, false⟩ : Reporting).compileFailure .empty "'é' == x" e).stderr =
        "error: No property or field 'x' exists in type 'Int32' (at index 7)\n  'é' == x\n        ^\n" ∧
      ((⟨.text, false⟩ : Reporting).compileFailure .empty "'é' == x" e).stderr ≠
        "error: " ++ e.message .empty ++ "\n  " ++ "'é' == x" ++ "\n  " ++
          String.ofList (List.replicate e.position ' ') ++ "^" ++ "\n" := by
  intro env
  have hfails : (failure? ((env.compilePredicate .int32 "'é' == x" []).exec .empty).1).any (fun e =>
      e.position = 7 ∧
      ((⟨.text, false⟩ : Reporting).compileFailure .empty "'é' == x" e).stderr =
        "error: No property or field 'x' exists in type 'Int32' (at index 7)\n  'é' == x\n        ^\n" ∧
      ((⟨.text, false⟩ : Reporting).compileFailure .empty "'é' == x" e).stderr ≠
        "error: " ++ e.message .empty ++ "\n  " ++ "'é' == x" ++ "\n  " ++
          String.ofList (List.replicate e.position ' ') ++ "^" ++ "\n") := by decide +kernel
  obtain ⟨e, he, hreport⟩ := failure?_any.mp hfails
  exact ⟨e, he, of_decide_eq_true hreport⟩

end RowQuery
