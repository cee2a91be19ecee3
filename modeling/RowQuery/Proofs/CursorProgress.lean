import RowQuery.Proofs.Scanning

/-!
Calls on one cursor, past faults. A call passes over the blank space and the lexeme at a place, whether there is a fault
in the lexeme or not, and reports no place beyond those it has passed. So a cursor stays within its text and moves on
with each call until only blank space is left, and from then on every call comes to the end.
-/

namespace RowQuery

/-! ### Lexemes with a fault -/

namespace Lexeme

theorem fractionLength_error {cs : List Char} {n : Nat} (h : fractionLength cs = .error n) : n ≤ cs.length := by
  unfold fractionLength at h
  split at h
  · split at h
    · cases h
      exact Nat.succ_le_succ (Nat.zero_le _)
    · cases h
  · cases h

theorem exponentLength_error {cs : List Char} {n : Nat} (h : exponentLength cs = .error n) : n ≤ cs.length := by
  cases cs with
  | nil => cases h
  | cons c cs =>
      by_cases hc : c = 'e' ∨ c = 'E'
      · rw [exponentLength_of_mark hc] at h
        split at h
        · cases h
          rw [List.length_cons, Nat.add_comm]
          exact Nat.succ_le_succ (signLength_le cs)
        · cases h
      · rw [exponentLength_of_not_mark hc] at h
        cases h

/-- A digit is missed right after what was read of the number. -/
theorem number_error {cs : List Char} {fault : Fault} {offset n : Nat}
    (h : number cs = (.error (fault, offset), n)) : offset = n + 1 ∧ n ≤ cs.length := by
  simp only [number] at h
  have hwhole := digitCount_le cs
  split at h
  · rename_i m hfraction
    have hle := fractionLength_error hfraction
    rw [List.length_drop] at hle
    cases h
    omega
  · rename_i fraction hfraction
    have hle := fractionLength_le hfraction
    split at h
    · rename_i m hexponent
      have hle' := exponentLength_error hexponent
      rw [List.length_drop] at hle hle'
      cases h
      omega
    · cases h

theorem either_ne_error {second : Char} {both alone : TokenKind} {cs : List Char} {e : Fault × Nat} {n : Nat} :
    either second both alone cs ≠ (.error e, n) := by
  unfold either
  split
  · split <;> simp
  · simp

/-- A fault is within what was read, or right after it, and that is within the text. -/
theorem read_error {c : Char} {cs : List Char} {fault : Fault} {offset n : Nat}
    (h : read c cs = (.error (fault, offset), n)) : offset ≤ n + 1 ∧ n ≤ cs.length := by
  unfold read at h
  split at h
  case h_1 | h_3 | h_14 | h_15 | h_19 => exact absurd h either_ne_error
  case h_13 => split at h <;> cases h
  case h_20 =>
    split at h
    · split at h
      · cases h
      · cases h
        exact ⟨Nat.le_of_eq (Nat.add_comm _ _), Nat.le_refl _⟩
    · split at h
      · cases h
      · split at h
        · obtain ⟨rfl, hle⟩ := number_error h
          exact ⟨Nat.le_refl _, hle⟩
        · cases h
          exact ⟨Nat.zero_le _, Nat.zero_le _⟩
  all_goals cases h

end Lexeme

namespace Cursor

/-! ### One call -/

section

variable {k : Cursor} {pos : Nat} {c : Char} {cs : List Char} {n : Nat}

theorem next_of_nil (h : k.skipBlank = ⟨pos, []⟩) : k.next = (.ok ⟨.done, "", pos⟩, ⟨pos, []⟩) := by
  simp only [next, h]

theorem next_of_ok {kind : TokenKind} (h : k.skipBlank = ⟨pos, c :: cs⟩) (hread : Lexeme.read c cs = (.ok kind, n)) :
    k.next = (.ok ⟨kind, String.ofList (c :: cs.take n), pos⟩, ⟨pos + n + 1, cs.drop n⟩) := by
  simp only [next, h, hread]

theorem next_of_error {fault : Fault} {offset : Nat} (h : k.skipBlank = ⟨pos, c :: cs⟩)
    (hread : Lexeme.read c cs = (.error (fault, offset), n)) :
    k.next = (.error ⟨fault, pos + offset⟩, ⟨pos + n + 1, cs.drop n⟩) := by
  simp only [next, h, hread]

end

/-- What a call does: over blank space it comes to the end of the text, and otherwise it moves on over some characters
and gives a token that is not the end, or a fault no further than that. -/
theorem next_cases (k : Cursor) :
    (∀ c ∈ k.rest, Text.isBlank c) ∧
        k.next = (.ok ⟨.done, "", k.pos + k.rest.length⟩, ⟨k.pos + k.rest.length, []⟩) ∨
      ¬(∀ c ∈ k.rest, Text.isBlank c) ∧ ∃ front rest, front ≠ [] ∧ k.rest = front ++ rest ∧
        k.next.2 = ⟨k.pos + front.length, rest⟩ ∧
        ((∃ t, k.next.1 = .ok t ∧ t.kind ≠ .done) ∨ ∃ e, k.next.1 = .error e ∧ e.position ≤ k.pos + front.length) := by
  rcases hskip : k.skipBlank with ⟨pos, _ | ⟨c, cs⟩⟩
  · obtain ⟨blank, hblank, hrest, hpos, -⟩ := k.exists_blank
    rw [hskip, List.append_nil] at hrest
    rw [hskip] at hpos
    obtain rfl : pos = k.pos + blank.length := hpos
    rw [next_of_nil hskip, hrest]
    exact Or.inl ⟨hblank, rfl⟩
  · right
    -- whatever comes of the lexeme, the call passes it and the blank space before it
    have hfront : ∀ n ≤ cs.length, (¬∀ c ∈ k.rest, Text.isBlank c) ∧
        ∃ front, front ≠ [] ∧ k.rest = front ++ cs.drop n ∧ pos + n + 1 = k.pos + front.length := by
      intro n hn
      obtain ⟨blank, -, hc, hrest, rfl, hlength⟩ := exists_front hskip hn
      refine ⟨fun hall => ?_, _, by simp, hrest, ?_⟩
      · rw [hall c (by simp [hrest])] at hc
        cases hc
      · rw [List.length_append, hlength, Nat.add_assoc, Nat.add_assoc]
    rcases hread : Lexeme.read c cs with ⟨⟨fault, offset⟩ | kind, n⟩
    · obtain ⟨hoffset, hn⟩ := Lexeme.read_error hread
      obtain ⟨hnot, front, hne, hrest, hafter⟩ := hfront n hn
      rw [next_of_error hskip hread, hafter]
      exact ⟨hnot, front, _, hne, hrest, rfl, Or.inr ⟨_, rfl, by simp only; omega⟩⟩
    · obtain ⟨hn, hkind⟩ := Lexeme.read_ok hread
      obtain ⟨hnot, front, hne, hrest, hafter⟩ := hfront n hn
      rw [next_of_ok hskip hread, hafter]
      exact ⟨hnot, front, _, hne, hrest, rfl, Or.inl ⟨_, rfl, hkind⟩⟩

/-- A call comes to the end of the text. -/
def Ended (k : Cursor) : Prop := ∃ t, k.next.1 = .ok t ∧ t.kind = .done

/-- A cursor that stands in a text. -/
def Within (text : List Char) (k : Cursor) : Prop := k.pos ≤ text.length ∧ k.rest = text.drop k.pos

variable {k : Cursor} {text : List Char}

theorem ended_iff : k.Ended ↔ ∀ c ∈ k.rest, Text.isBlank c := by
  rcases k.next_cases with ⟨hblank, hnext⟩ | ⟨hnot, -, -, -, -, -, ⟨t, ht, hkind⟩ | ⟨e, he, -⟩⟩
  · exact ⟨fun _ => hblank, fun _ => ⟨_, congrArg Prod.fst hnext, rfl⟩⟩
  · refine ⟨?_, fun h => absurd h hnot⟩
    rintro ⟨u, hu, hdone⟩
    rw [ht] at hu
    cases hu
    exact absurd hdone hkind
  · refine ⟨?_, fun h => absurd h hnot⟩
    rintro ⟨u, hu, -⟩
    rw [he] at hu
    cases hu

theorem Ended.next_eq (h : k.Ended) :
    k.next = (.ok ⟨.done, "", k.pos + k.rest.length⟩, ⟨k.pos + k.rest.length, []⟩) := by
  rcases k.next_cases with ⟨-, hnext⟩ | ⟨hnot, -⟩
  · exact hnext
  · exact absurd (ended_iff.mp h) hnot

theorem Ended.next (h : k.Ended) : k.next.2.Ended := by
  rw [ended_iff, h.next_eq]
  simp

theorem lt_next_of_not_ended (h : ¬k.Ended) : k.pos < k.next.2.pos := by
  rcases k.next_cases with ⟨hblank, -⟩ | ⟨-, front, rest, hne, -, hnext, -⟩
  · exact absurd (ended_iff.mpr hblank) h
  · rw [hnext]
    exact Nat.lt_add_of_pos_right (List.length_pos_iff.mpr hne)

theorem le_next (k : Cursor) : k.pos ≤ k.next.2.pos := by
  by_cases h : k.Ended
  · rw [h.next_eq]
    exact Nat.le_add_right _ _
  · exact Nat.le_of_lt (lt_next_of_not_ended h)

theorem error_le_next {e : CompileError} (h : k.next.1 = .error e) : e.position ≤ k.next.2.pos := by
  rcases k.next_cases with ⟨-, hnext⟩ | ⟨-, front, rest, -, -, hnext, ⟨t, ht, -⟩ | ⟨e', he, hle⟩⟩
  · rw [hnext] at h
    cases h
  · rw [ht] at h
    cases h
  · rw [he] at h
    cases h
    rw [hnext]
    exact hle

/-- A call leaves the cursor in the text. -/
theorem Within.next (h : k.Within text) : k.next.2.Within text := by
  obtain ⟨hle, hrest⟩ := h
  have hlength : k.pos + k.rest.length = text.length := by
    rw [hrest, List.length_drop]
    omega
  rcases k.next_cases with ⟨-, hnext⟩ | ⟨-, front, rest, -, hsplit, hnext, -⟩
  · rw [hnext, hlength]
    exact ⟨Nat.le_refl _, List.drop_length.symm⟩
  · rw [hsplit, List.length_append] at hlength
    rw [hnext]
    refine ⟨by simp only; omega, ?_⟩
    rw [← List.drop_drop, ← hrest, hsplit, List.drop_left]

/-! ### Calls one after the other -/

/-- The cursor after so many calls. -/
def after (k : Cursor) : Nat → Cursor
  | 0 => k
  | i + 1 => (k.after i).next.2

theorem Within.after (h : k.Within text) (i : Nat) : (k.after i).Within text := by
  induction i with
  | zero => exact h
  | succ i ih => exact ih.next

theorem Ended.after {i j : Nat} (h : (k.after i).Ended) (hij : i ≤ j) : (k.after j).Ended := by
  induction hij with
  | refl => exact h
  | step _ ih => exact ih.next

/-- As long as the end is not reached, there were no more calls than characters passed. -/
theorem lt_after_of_not_ended {i : Nat} (h : ¬(k.after i).Ended) : k.pos + i < (k.after (i + 1)).pos := by
  induction i with
  | zero => exact lt_next_of_not_ended h
  | succ i ih =>
      have hbefore := ih fun hended => h (hended.after (Nat.le_succ i))
      have hstep : (k.after (i + 1)).pos < (k.after (i + 1 + 1)).pos := lt_next_of_not_ended h
      omega

/-- Calls on one cursor, past faults. The cursor never goes back nor leaves the text, and moves on with each call
that does not come to the end. A call comes to the end exactly where only blank space is left, and so do all calls
after it, at the end of the text. No fault is reported beyond the text. So there are no more calls that give a token
or a fault than there are characters. -/
theorem calls_progress (text : String) :
    let place := Cursor.after ⟨0, text.toList⟩
    (∀ i, (place i).pos ≤ (place (i + 1)).pos ∧ (place i).pos ≤ text.length ∧
      (place i).rest = text.toList.drop (place i).pos) ∧
    (∀ i, ¬(place i).Ended → (place i).pos < (place (i + 1)).pos) ∧
    (∀ i, (place i).Ended ↔ ∀ c ∈ (place i).rest, Text.isBlank c) ∧
    (∀ i j, (place i).Ended → i ≤ j → (place j).next.1 = .ok ⟨.done, "", text.length⟩) ∧
    (∀ i e, (place i).next.1 = .error e → e.position ≤ text.length) ∧
    (∀ calls : List Nat, calls.Nodup → (∀ i ∈ calls, ¬(place i).Ended) → calls.length ≤ text.length) := by
  intro place
  have hwithin : ∀ i, (place i).Within text.toList := Within.after ⟨Nat.zero_le _, rfl⟩
  have hle : ∀ i, (place i).pos ≤ text.length := fun i => String.length_toList ▸ (hwithin i).1
  refine ⟨fun i => ⟨(place i).le_next, hle i, (hwithin i).2⟩, fun i => lt_next_of_not_ended,
    fun i => ended_iff, ?_, ?_, ?_⟩
  · intro i j hended hij
    have hlength : (place j).pos + (place j).rest.length = text.length := by
      rw [(hwithin j).2, List.length_drop, String.length_toList]
      have := hle j
      omega
    rw [(hended.after hij).next_eq, hlength]
  · intro i e he
    exact Nat.le_trans (error_le_next he) (hle (i + 1))
  · intro calls hnodup hcalls
    have hrange : calls ⊆ List.range text.length := by
      intro i hi
      have hpassed := lt_after_of_not_ended (hcalls i hi)
      have := hle (i + 1)
      exact List.mem_range.mpr (by simp only [place] at this; omega)
    have hcount := hnodup.length_le_of_subset hrange
    rwa [List.length_range] at hcount

/-- Two faults with a name between them, and then the end. -/
theorem calls_progress_faults :
    let place := Cursor.after ⟨0, "1.x 'y".toList⟩
    (place 0).next.1 = .error ⟨.digitExpected, 2⟩ ∧ (place 1).next.1 = .ok ⟨.identifier, "x", 2⟩ ∧
      (place 2).next.1 = .error ⟨.unterminatedString, 6⟩ ∧
      (∀ j, 3 ≤ j → (place j).next.1 = .ok ⟨.done, "", 6⟩) ∧ (place 2).pos < (place 3).pos := by
  intro place
  have hfault : (place 2).next.1 = .error ⟨.unterminatedString, 6⟩ := rfl
  obtain ⟨-, hmoves, -, hends, -⟩ := calls_progress "1.x 'y"
  refine ⟨rfl, rfl, hfault, fun j hj => hends 3 j ⟨_, rfl, rfl⟩ hj, hmoves 2 ?_⟩
  rintro ⟨t, ht, -⟩
  rw [hfault] at ht
  cases ht

end Cursor

end RowQuery
