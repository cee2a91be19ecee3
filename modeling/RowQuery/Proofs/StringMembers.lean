import RowQuery.Proofs.IntegerConversion
import RowQuery.Proofs.MemberOperands

/-!
The members of strings fit together, counted in characters. A part of a string is what `Substring` gives, the first
place of another string in it is where such a part is that string, and a string starts or ends with another one where
the part at its start or its end is that string.
-/

namespace RowQuery

open Grammar Lexeme

/-! ### Occurrences -/

namespace Text

/-- A text is found at the first place where what is left starts with it. -/
theorem find?_eq_some_iff {part text : List Char} {i : Nat} :
    find? part text = some i ↔ part <+: text.drop i ∧ ∀ j < i, ¬part <+: text.drop j := by
  induction text generalizing i with
  | nil =>
      rw [find?, List.drop_nil]
      by_cases hpart : part = []
      · simp only [hpart, List.isEmpty_nil, if_true, List.drop_nil, List.nil_prefix, not_true_eq_false, true_and,
          Option.some.injEq]
        exact ⟨fun h j hj => by omega, fun h => by_contra fun hi => h 0 (by omega)⟩
      · have hempty : part.isEmpty = false := by simpa using hpart
        simp [hempty, hpart]
  | cons c cs ih =>
      rw [find?]
      by_cases hstarts : part.isPrefixOf (c :: cs)
      · rw [if_pos hstarts]
        have hfirst : part <+: c :: cs := List.isPrefixOf_iff_prefix.mp hstarts
        constructor
        · rintro ⟨⟩
          exact ⟨hfirst, fun j hj => absurd hj (Nat.not_lt_zero j)⟩
        · rintro ⟨-, hleast⟩
          cases i with
          | zero => rfl
          | succ i => exact absurd hfirst (hleast 0 (Nat.succ_pos i))
      · rw [if_neg hstarts, Option.map_eq_some_iff]
        have hfirst : ¬part <+: c :: cs := fun h => hstarts (List.isPrefixOf_iff_prefix.mpr h)
        constructor
        · rintro ⟨j, hj, rfl⟩
          obtain ⟨hfound, hleast⟩ := ih.mp hj
          refine ⟨hfound, fun j' hj' => ?_⟩
          cases j' with
          | zero => exact hfirst
          | succ j' => exact hleast j' (Nat.lt_of_succ_lt_succ hj')
        · rintro ⟨hfound, hleast⟩
          cases i with
          | zero => exact absurd hfound hfirst
          | succ i => exact ⟨i, ih.mpr ⟨hfound, fun j hj => hleast (j + 1) (Nat.succ_lt_succ hj)⟩, rfl⟩

theorem find?_eq_none_iff {part text : List Char} : find? part text = none ↔ ∀ i, ¬part <+: text.drop i := by
  constructor
  · intro hnone i
    induction i using Nat.strong_induction_on with
    | _ i ih =>
        intro hfound
        have hsome := find?_eq_some_iff.mpr ⟨hfound, ih⟩
        rw [hnone] at hsome
        cases hsome
  · intro hnever
    by_contra hsome
    obtain ⟨i, hi⟩ := Option.ne_none_iff_exists'.mp hsome
    exact hnever i (find?_eq_some_iff.mp hi).1

end Text

/-! ### Positions -/

theorem Word.val_clamp {n : Nat} (h : n ≤ 2147483647) : (Word.clamp .int32 n).val = n := by
  have hholds : IntKind.int32.Holds n := ⟨by show (-2147483648 : Int) ≤ n; omega, by show (n : Int) ≤ 2147483647; omega⟩
  rw [clamp, if_neg (by have := hholds.2; omega), if_neg (by have := hholds.1; omega), val_wrap hholds]

namespace Operation

variable {text : List Char} {i k : Word .int32} {v : Value}

theorem position_eq_ok {n : Int} {length p : Nat} : position n length = .ok p ↔ 0 ≤ n ∧ n ≤ length ∧ p = n.toNat := by
  unfold position
  split
  · rename_i h
    simp [h.1, h.2, eq_comm]
  · rename_i h
    simp only [reduceCtorEq, false_iff]
    exact fun h' => h ⟨h'.1, h'.2.1⟩

theorem eq_string_iff {s : String} {cs : List Char} : .string s = string cs ↔ s.toList = cs := by
  rw [string, Value.string.injEq]
  constructor
  · rintro rfl
    exact String.toList_ofList
  · rintro rfl
    exact String.ofList_toList.symm

/-- A part is given where it lies within the text. -/
theorem substring_eq_ok :
    substring text [.int .int32 i, .int .int32 k] = .ok v ↔
      (0 ≤ i.val ∧ 0 ≤ k.val ∧ i.val + k.val ≤ text.length) ∧
        v = string ((text.drop i.val.toNat).take k.val.toNat) := by
  have hrun : substring text [.int .int32 i, .int .int32 k] = position i.val text.length >>= fun start =>
      position k.val (text.length - start : Nat) >>= fun length =>
        .ok (string ((text.drop start).take length)) := rfl
  simp only [hrun, Typing.bind_eq_ok, position_eq_ok, Except.ok.injEq]
  constructor
  · rintro ⟨_, ⟨hi, hle, rfl⟩, _, ⟨hk, hk', rfl⟩, rfl⟩
    exact ⟨⟨hi, hk, by omega⟩, rfl⟩
  · rintro ⟨⟨hi, hk, hle⟩, rfl⟩
    exact ⟨_, ⟨hi, by omega, rfl⟩, _, ⟨hk, by omega, rfl⟩, rfl⟩

theorem substring_tail_eq_ok :
    substring text [.int .int32 i] = .ok v ↔
      (0 ≤ i.val ∧ i.val ≤ text.length) ∧ v = string (text.drop i.val.toNat) := by
  have hrun : substring text [.int .int32 i] = position i.val text.length >>= fun start =>
      .ok (string (text.drop start)) := rfl
  simp only [hrun, Typing.bind_eq_ok, position_eq_ok, Except.ok.injEq]
  constructor
  · rintro ⟨_, ⟨hi, hle, rfl⟩, rfl⟩
    exact ⟨⟨hi, hle⟩, rfl⟩
  · rintro ⟨⟨hi, hle⟩, rfl⟩
    exact ⟨_, ⟨hi, hle, rfl⟩, rfl⟩

/-- A character is given where the position is one of the text. -/
theorem chars_eq_ok (cat : Catalog) (method : Method) {s : String} :
    call cat .stringChars method (some (.string s)) [.int .int32 i] = .ok v ↔
      0 ≤ i.val ∧ ∃ c, s.toList[i.val.toNat]? = some c ∧ v = .char c := by
  have hrun : call cat .stringChars method (some (.string s)) [.int .int32 i] =
      orElse (.indexOutOfRange i.val s.toList.length) (if 0 ≤ i.val then s.toList[i.val.toNat]? else none) >>=
        fun c => .ok (.char c) := rfl
  rw [hrun]
  by_cases hi : 0 ≤ i.val
  · rw [if_pos hi]
    cases s.toList[i.val.toNat]? with
    | none => simp [orElse, hi, bind, Except.bind]
    | some c => simp [orElse, hi, bind, Except.bind, eq_comm]
  · simp [orElse, hi, bind, Except.bind]

end Operation

/-! ### Texts of members -/

/-- Two strings and two numbers. -/
def memberDecls : List ParamDecl := [⟨some "s", .string⟩, ⟨some "n", .string⟩, ⟨some "i", .int32⟩, ⟨some "k", .int32⟩]

def memberRow (s n : String) (i k : Word .int32) : List Value :=
  [.string s, .string n, .int .int32 i, .int .int32 k]

/-- What a text about two strings and two numbers evaluates to. -/
def Environment.Gives (env : Environment) (s n : String) (i k : Word .int32) (text : String)
    (r : Except EvalError Value) : Prop :=
  ∃ l, env.Compiles memberDecls none text [] l ∧ env.catalog.evalLambda l (memberRow s n i k) = r

/-- A text gives one result. -/
theorem Environment.Gives.iff_eq {env : Environment} {s n text : String} {i k : Word .int32}
    {r r' : Except EvalError Value} (h : env.Gives s n i k text r) : env.Gives s n i k text r' ↔ r = r' := by
  constructor
  · rintro ⟨l', hl', rfl⟩
    obtain ⟨l, hl, rfl⟩ := h
    have hsame := (hl.compile_eq_ok .empty).symm.trans (hl'.compile_eq_ok .empty)
    rw [Except.ok.inj hsame]
  · rintro rfl
    exact h

/-- The names of the two strings and the two numbers are not names of types. -/
def Environment.MemberNames (env : Environment) : Prop :=
  ∀ name ∈ ["s", "n", "i", "k"], env.context.lookup? name = none

namespace Environment

variable {env : Environment} {s n : String} {i k : Word .int32}

theorem MemberNames.plain (h : env.MemberNames) : ∀ name ∈ ["s", "n", "i", "k"], env.PlainName name := by
  intro name hname
  have hlookup := h name hname
  simp only [List.mem_cons, List.not_mem_nil, or_false] at hname
  rcases hname with rfl | rfl | rfl | rfl
  all_goals exact ⟨⟨_, _, rfl, by decide, List.forall_mem_nil _⟩, by decide, by rw [hlookup]; decide⟩

end Environment

/-- A scope in which the four names stand for the two strings and the two numbers. -/
structure Scope.KnowsMembers (scope : Scope) (s n : String) (i k : Word .int32) : Prop where
  text : scope.Knows (memberRow s n i k) "s" (.param .string 0) (.string s)
  part : scope.Knows (memberRow s n i k) "n" (.param .string 1) (.string n)
  start : scope.Knows (memberRow s n i k) "i" (.param .int32 2) (.int .int32 i)
  length : scope.Knows (memberRow s n i k) "k" (.param .int32 3) (.int .int32 k)

theorem Environment.MemberNames.knows {env : Environment} (h : env.MemberNames) (s n : String) (i k : Word .int32) :
    ∃ symbols, Symbols.ofText (bindParams memberDecls) [] = .ok symbols ∧
      (env.scope (bindParams memberDecls) symbols).KnowsMembers s n i k := by
  have hdistinct : ((memberDecls.filterMap (·.name)).map Text.fold).Nodup := by decide
  obtain ⟨symbols, hsymbols, hscope⟩ := exists_declares env hdistinct
  refine ⟨symbols, hsymbols, ?_, ?_, ?_, ?_⟩
  all_goals exact .of_declares hscope (by simp [bindParams, memberDecls]) (h.plain _ (by simp)) rfl

/-! ### Members of a string -/

namespace Scope.Knows

variable {scope : Scope} {row : List Value} {depth : Nat} {ls : List Lexeme} {name text : String} {e : Expr}
  {es : List Expr} {vs : List Value}

/-- The methods of strings have plain names, and differ in their parameters where they share a name. -/
theorem string_methods : ∀ method ∈ Predefined.string.methods, unmarked method.name = method.name ∧
    ((Predefined.string.methodsNamed method.name false).map Method.params).Nodup := by
  decide

/-- A method of a string is called. -/
theorem string_call (h : scope.Knows row name e (.string text)) (hty : e.ty = .string) {method : Method}
    (hmethod : method ∈ Predefined.string.methods) (hstatic : method.isStatic = false)
    (hargs : DenotesAll scope row depth ls es vs) (hparams : method.params = es.map (·.ty)) :
    Denotes scope row (depth + 1) 6
      (⟨.identifier, name⟩ :: dot :: ⟨.identifier, method.name⟩ :: openParen :: (ls ++ [closeParen]))
      (.call method.result method (some e) es) (Eval.call scope.catalog method (some (.string text)) vs) := by
  obtain ⟨hplain, hdistinct⟩ := string_methods method hmethod
  have hnamed : method ∈ Predefined.string.methodsNamed method.name false :=
    List.mem_filter.mpr ⟨hmethod, by simp [hstatic, Text.sameName]⟩
  refine h.call rfl hplain hargs ?_ (?_ : _ = Predefined.string :: [Predefined.shared]) hnamed hparams hdistinct
  · simp [Typing.Receiver.aggregated?, hty]
  · rw [hty]
    rfl

end Scope.Knows

theorem whole_memberName : ∀ name ∈ ["s", "n", "i", "k", "Length"], Lexeme.Whole ⟨.identifier, name⟩ := by
  intro name hname
  simp only [List.mem_cons, List.not_mem_nil, or_false] at hname
  rcases hname with rfl | rfl | rfl | rfl | rfl <;> exact ⟨_, _, rfl, by decide, rfl⟩

/-- A text for a number that is known from the two strings and the two numbers. -/
def Numbered (s n : String) (i k : Word .int32) (text : String) (v : Word .int32) : Prop :=
  ∃ ls, Scans text.toList ls ∧ ∀ scope : Scope, scope.KnowsMembers s n i k → ∃ e level, e.ty = .int32 ∧
    Denotes scope (memberRow s n i k) 0 level ls e (.ok (.int .int32 v))

namespace Numbered

variable {s n : String} {i k : Word .int32}

theorem start : Numbered s n i k "i" i :=
  ⟨_, .single (whole_memberName _ (by simp)), fun _ h => ⟨_, _, rfl, h.start.denotes⟩⟩

theorem length : Numbered s n i k "k" k :=
  ⟨_, .single (whole_memberName _ (by simp)), fun _ h => ⟨_, _, rfl, h.length.denotes⟩⟩

theorem literal {text : String} {v : Word .int32} (hwhole : Lexeme.Whole ⟨.integerLiteral, text⟩)
    (h : integerLiteral? text = some (.literal .int32 (.int .int32 v) text)) : Numbered s n i k text v :=
  ⟨_, .single hwhole, fun _ _ => ⟨_, _, rfl, .literal h⟩⟩

/-- The length of a string as an operand. -/
theorem denotes_length {scope : Scope} {row : List Value} {name text : String} {slot : Nat}
    (h : scope.Knows row name (.param .string slot) (.string text)) :
    Denotes scope row 0 6 [⟨.identifier, name⟩, dot, ⟨.identifier, "Length"⟩]
      (.property .int32 (Predefined.readOnly "Length" .int32 .stringLength) (some (.param .string slot)))
      (.ok (.int .int32 (.clamp .int32 text.toList.length))) := by
  have hplain : unmarked "Length" = "Length" := by decide
  exact h.property rfl hplain rfl

theorem scans_length {name : String} (hname : Lexeme.Whole ⟨.identifier, name⟩) :
    Scans (name.toList ++ '.' :: "Length".toList) [⟨.identifier, name⟩, dot, ⟨.identifier, "Length"⟩] :=
  (Scans.single (whole_memberName "Length" (by simp))).member hname

theorem scans_textLength : Scans "s.Length".toList [⟨.identifier, "s"⟩, dot, ⟨.identifier, "Length"⟩] :=
  scans_length (whole_memberName "s" (by simp))

theorem scans_partLength : Scans "n.Length".toList [⟨.identifier, "n"⟩, dot, ⟨.identifier, "Length"⟩] :=
  scans_length (whole_memberName "n" (by simp))

theorem partLength : Numbered s n i k "n.Length" (.clamp .int32 n.toList.length) :=
  ⟨_, scans_partLength, fun _ h => ⟨_, _, rfl, denotes_length h.part⟩⟩

/-- How much longer the text is than the part. -/
theorem excess : Numbered s n i k "s.Length - n.Length"
    (.wrap .int32 ((Word.clamp .int32 s.toList.length).val - (Word.clamp .int32 n.toList.length).val)) := by
  have hminus : BinaryOp.subtract.lexeme.Whole := ⟨_, _, rfl, by decide, rfl⟩
  have htext : "s.Length - n.Length" = "s.Length" ++ " " ++ BinaryOp.subtract.lexeme.text ++ " " ++ "n.Length" := rfl
  rw [htext]
  exact ⟨_, scans_textLength.joined hminus scans_partLength,
    fun _ h => ⟨_, _, rfl, .difference (denotes_length h.text) (denotes_length h.part) rfl rfl⟩⟩

end Numbered

namespace Environment.MemberNames

variable {env : Environment} {s n text : String} {i k : Word .int32}

/-- What a phrase denotes, the text of its lexemes gives. -/
theorem gives (h : env.MemberNames) {depth : Nat} {ls : List Lexeme} {r : Except EvalError Value}
    (hdenotes : ∀ scope : Scope, scope.catalog = env.catalog → scope.KnowsMembers s n i k →
      ∃ e, Denotes scope (memberRow s n i k) depth 6 ls e r)
    (hdepth : depth < maxDepth) (hscans : Scans text.toList ls) : env.Gives s n i k text r := by
  obtain ⟨symbols, hsymbols, hknows⟩ := h.knows s n i k
  obtain ⟨e, he⟩ := hdenotes _ rfl hknows
  exact he.compiles hsymbols hdepth hscans rfl

/-- What a method of the string does with the arguments, a text that calls it gives. -/
theorem gives_call (h : env.MemberNames) {method : Method} (hmethod : method ∈ Predefined.string.methods)
    (hstatic : method.isStatic = false) (hname : Lexeme.Whole ⟨.identifier, method.name⟩) {ls : List Lexeme}
    {vs : List Value} (hargs : ∀ scope : Scope, scope.KnowsMembers s n i k → ∃ es, es.map (·.ty) = method.params ∧
      DenotesAll scope (memberRow s n i k) 0 ls es vs)
    {a : String} (hscans : Scans a.toList ls) {r : Except EvalError Value}
    (hr : Eval.call env.catalog method (some (.string s)) vs = r)
    (htext : text = "s." ++ method.name ++ "(" ++ a ++ ")") : env.Gives s n i k text r := by
  have hdepth : 0 + 1 < maxDepth := by decide
  have hscans : Scans text.toList
      (⟨.identifier, "s"⟩ :: dot :: ⟨.identifier, method.name⟩ :: openParen :: (ls ++ [closeParen])) := by
    have hmember := Scans.member (Scans.call hscans hname) (whole_memberName "s" (by simp))
    simpa [htext] using hmember
  refine h.gives (fun scope hscope hknows => ?_) hdepth hscans
  obtain ⟨es, htypes, hes⟩ := hargs scope hknows
  rw [← hr, ← hscope]
  exact ⟨_, hknows.text.string_call rfl hmethod hstatic hes htypes.symm⟩

theorem gives_length (h : env.MemberNames) :
    env.Gives s n i k "s.Length" (.ok (.int .int32 (.clamp .int32 s.toList.length))) :=
  h.gives (fun _ _ hknows => ⟨_, Numbered.denotes_length hknows.text⟩) (by decide) Numbered.scans_textLength

theorem gives_substring (h : env.MemberNames) {x y : String} {a b : Word .int32} (ha : Numbered s n i k x a)
    (hb : Numbered s n i k y b) (htext : text = "s." ++ "Substring" ++ "(" ++ (x ++ ", " ++ y) ++ ")") :
    env.Gives s n i k text (Operation.substring s.toList [.int .int32 a, .int .int32 b]) := by
  obtain ⟨ls, hscans, ha⟩ := ha
  obtain ⟨ms, hscans', hb⟩ := hb
  have hmethod : Predefined.instanceMethod "Substring" [.int32, .int32] .string .stringSubstring ∈
      Predefined.string.methods := by simp [Predefined.string]
  have hargs : ∀ scope : Scope, scope.KnowsMembers s n i k → ∃ es : List Expr, es.map (·.ty) = [.int32, .int32] ∧
      DenotesAll scope (memberRow s n i k) 0 (ls ++ comma :: ms) es [.int .int32 a, .int .int32 b] := by
    intro scope hknows
    obtain ⟨e, level, hty, hdenotes⟩ := ha scope hknows
    obtain ⟨e₂, level₂, hty₂, hdenotes₂⟩ := hb scope hknows
    exact ⟨[e, e₂], by simp [hty, hty₂], .two hdenotes hdenotes₂⟩
  exact h.gives_call hmethod rfl ⟨_, _, rfl, by decide, rfl⟩ hargs (hscans.listed hscans') rfl htext

theorem gives_tail (h : env.MemberNames) {x : String} {a : Word .int32} (ha : Numbered s n i k x a)
    (htext : text = "s." ++ "Substring" ++ "(" ++ x ++ ")") :
    env.Gives s n i k text (Operation.substring s.toList [.int .int32 a]) := by
  obtain ⟨ls, hscans, ha⟩ := ha
  have hmethod : Predefined.instanceMethod "Substring" [.int32] .string .stringSubstring ∈
      Predefined.string.methods := by simp [Predefined.string]
  have hargs : ∀ scope : Scope, scope.KnowsMembers s n i k → ∃ es : List Expr, es.map (·.ty) = [.int32] ∧
      DenotesAll scope (memberRow s n i k) 0 ls es [.int .int32 a] := by
    intro scope hknows
    obtain ⟨e, level, hty, hdenotes⟩ := ha scope hknows
    exact ⟨[e], by simp [hty], .one hdenotes⟩
  exact h.gives_call hmethod rfl ⟨_, _, rfl, by decide, rfl⟩ hargs hscans rfl htext

/-- Methods that look for the second string in the first. -/
theorem gives_search (h : env.MemberNames) {method : Method} (hmethod : method ∈ Predefined.string.methods)
    (hstatic : method.isStatic = false) (hparams : method.params = [.string])
    (hname : Lexeme.Whole ⟨.identifier, method.name⟩) {r : Except EvalError Value}
    (hr : Eval.call env.catalog method (some (.string s)) [.string n] = r)
    (htext : text = "s." ++ method.name ++ "(" ++ "n" ++ ")") : env.Gives s n i k text r :=
  h.gives_call hmethod hstatic hname
    (fun _ hknows => ⟨[.param .string 1], hparams.symm, .one hknows.part.denotes⟩)
    (Scans.single (whole_memberName "n" (by simp))) hr htext

theorem gives_contains (h : env.MemberNames) :
    env.Gives s n i k "s.Contains(n)" (.ok (.boolean (Text.find? n.toList s.toList).isSome)) := by
  have hmethod : Predefined.instanceMethod "Contains" [.string] .boolean .stringContains ∈
      Predefined.string.methods := by simp [Predefined.string]
  exact h.gives_search hmethod rfl rfl ⟨_, _, rfl, by decide, rfl⟩ rfl rfl

theorem gives_startsWith (h : env.MemberNames) :
    env.Gives s n i k "s.StartsWith(n)" (.ok (.boolean (n.toList.isPrefixOf s.toList))) := by
  have hmethod : Predefined.instanceMethod "StartsWith" [.string] .boolean .stringStartsWith ∈
      Predefined.string.methods := by simp [Predefined.string]
  exact h.gives_search hmethod rfl rfl ⟨_, _, rfl, by decide, rfl⟩ rfl rfl

theorem gives_endsWith (h : env.MemberNames) :
    env.Gives s n i k "s.EndsWith(n)" (.ok (.boolean (n.toList.isSuffixOf s.toList))) := by
  have hmethod : Predefined.instanceMethod "EndsWith" [.string] .boolean .stringEndsWith ∈
      Predefined.string.methods := by simp [Predefined.string]
  exact h.gives_search hmethod rfl rfl ⟨_, _, rfl, by decide, rfl⟩ rfl rfl

theorem gives_indexOf (h : env.MemberNames) :
    env.Gives s n i k "s.IndexOf(n)"
      (.ok ((Text.find? n.toList s.toList).elim (.int32 (-1)) Operation.clampedCount)) := by
  have hmethod : Predefined.instanceMethod "IndexOf" [.string] .int32 .stringIndexOf ∈
      Predefined.string.methods := by simp [Predefined.string]
  refine h.gives_search hmethod rfl rfl ⟨_, _, rfl, by decide, rfl⟩ ?_ rfl
  cases hfound : Text.find? n.toList s.toList <;>
    simp [Eval.call, Predefined.instanceMethod, Operation.call, Operation.orElse, Operation.expectString,
      Operation.expectArg, hfound, bind, Except.bind, pure, Except.pure]

theorem gives_element (h : env.MemberNames) :
    env.Gives s n i k "s[i]" (Eval.call env.catalog (Predefined.instanceMethod "Chars" [.int32] .char .stringChars)
      (some (.string s)) [.int .int32 i]) := by
  have hdepth : 0 + 1 < maxDepth := by decide
  have hscans : Scans "s[i]".toList
      [⟨.identifier, "s"⟩, openBracket, ⟨.identifier, "i"⟩, closeBracket] := by
    have hindex : Scans "i".toList [⟨.identifier, "i"⟩] := .single (whole_memberName "i" (by simp))
    exact hindex.element (whole_memberName "s" (by simp))
  refine h.gives (fun scope hscope hknows => ?_) hdepth hscans
  rw [← hscope]
  exact ⟨_, hknows.text.element rfl (.one hknows.start.denotes) (by simp [Expr.ty]) rfl
    (List.mem_singleton_self _) rfl (by decide)⟩

/-- Where the part at a position is the second string, the first one goes on with it there. -/
theorem gives_found_iff (h : env.MemberNames) (hn : n.length ≤ 2147483647) :
    env.Gives s n i k "s.Substring(i, n.Length)" (.ok (.string n)) ↔
      0 ≤ i.val ∧ i.val ≤ s.length ∧ n.toList <+: s.toList.drop i.val.toNat := by
  have hgives : env.Gives s n i k "s.Substring(i, n.Length)" _ :=
    h.gives_substring .start .partLength rfl
  have hlength : (Word.clamp .int32 n.toList.length).val = n.length := by
    rw [String.length_toList]
    exact Word.val_clamp hn
  rw [hgives.iff_eq, Operation.substring_eq_ok, hlength, Operation.eq_string_iff, Int.toNat_natCast,
    String.length_toList, List.prefix_iff_eq_take, String.length_toList]
  constructor
  · rintro ⟨⟨hi, -, hle⟩, heq⟩
    exact ⟨hi, by omega, heq⟩
  · rintro ⟨hi, hle, heq⟩
    have hshort := congrArg List.length heq
    rw [List.length_take, List.length_drop, String.length_toList, String.length_toList] at hshort
    exact ⟨⟨hi, by omega, by omega⟩, heq⟩

/-- The first place of the second string in the first. -/
theorem gives_indexOf_cases (h : env.MemberNames) (hs : s.length ≤ 2147483647) :
    ∃ j : Word .int32, env.Gives s n i k "s.IndexOf(n)" (.ok (.int .int32 j)) ∧
      (((Text.find? n.toList s.toList).isSome ∧ 0 ≤ j.val ∧ j.val ≤ s.length ∧ n.toList <+: s.toList.drop j.val.toNat ∧
          ∀ p < j.val.toNat, ¬n.toList <+: s.toList.drop p) ∨
        (Text.find? n.toList s.toList = none ∧ j.val = -1 ∧ ∀ p, ¬n.toList <+: s.toList.drop p)) := by
  have hgives : env.Gives s n i k "s.IndexOf(n)" _ := h.gives_indexOf
  cases hfound : Text.find? n.toList s.toList with
  | none =>
      rw [hfound] at hgives
      exact ⟨_, hgives, Or.inr ⟨rfl, by decide, Text.find?_eq_none_iff.mp hfound⟩⟩
  | some p =>
      obtain ⟨hstarts, hleast⟩ := Text.find?_eq_some_iff.mp hfound
      have hle : p ≤ s.length := by
        by_contra hlt
        rw [List.drop_eq_nil_of_le (by rw [String.length_toList]; omega), List.prefix_nil] at hstarts
        exact hleast 0 (by omega) (by rw [hstarts]; exact List.nil_prefix)
      rw [hfound] at hgives
      have hval : (Word.clamp .int32 p).val = p := Word.val_clamp (by omega)
      refine ⟨_, hgives, Or.inl ⟨rfl, ?_⟩⟩
      rw [hval, Int.toNat_natCast]
      exact ⟨by omega, by omega, hstarts, hleast⟩

/-- The parts before and after a position make up the string. -/
theorem gives_halves (h : env.MemberNames) (hi : 0 ≤ i.val) (hle : i.val ≤ s.length) :
    ∃ a b, env.Gives s n i k "s.Substring(0, i)" (.ok (.string a)) ∧
      env.Gives s n i k "s.Substring(i)" (.ok (.string b)) ∧ a ++ b = s := by
  have hzero : integerLiteral? "0" = some (.literal .int32 (.int .int32 (.wrap .int32 0)) "0") := by rfl
  have hval : (Word.wrap .int32 0).val = 0 := by decide
  have hfirst : env.Gives s n i k "s.Substring(0, i)" _ :=
    h.gives_substring (.literal ⟨_, _, rfl, by decide, rfl⟩ hzero) .start rfl
  have hlast : env.Gives s n i k "s.Substring(i)" _ := h.gives_tail .start rfl
  refine ⟨String.ofList (s.toList.take i.val.toNat), String.ofList (s.toList.drop i.val.toNat),
    hfirst.iff_eq.mpr ?_, hlast.iff_eq.mpr ?_, ?_⟩
  · rw [Operation.substring_eq_ok, hval, String.length_toList]
    exact ⟨⟨Int.le_refl 0, hi, by omega⟩, rfl⟩
  · rw [Operation.substring_tail_eq_ok, String.length_toList]
    exact ⟨⟨hi, hle⟩, rfl⟩
  · rw [← String.ofList_append, List.take_append_drop, String.ofList_toList]

/-- A string ends with another one where the part at its end is that one. -/
theorem isSuffixOf_iff (h : env.MemberNames) (hs : s.length ≤ 2147483647) (hn : n.length ≤ 2147483647) :
    n.toList.isSuffixOf s.toList ↔ n.length ≤ s.length ∧
      env.Gives s n i k "s.Substring(s.Length - n.Length)" (.ok (.string n)) := by
  have hgives : env.Gives s n i k "s.Substring(s.Length - n.Length)" _ :=
    h.gives_tail .excess rfl
  rw [String.length_toList, String.length_toList, Word.val_clamp hs, Word.val_clamp hn] at hgives
  rw [hgives.iff_eq, Operation.substring_tail_eq_ok, List.isSuffixOf_iff_suffix, List.suffix_iff_eq_drop,
    Operation.eq_string_iff, String.length_toList, String.length_toList]
  have hval : n.length ≤ s.length →
      (Word.wrap .int32 ((s.length : Int) - n.length)).val = (s.length - n.length : Nat) := by
    intro hle
    rw [Word.val_wrap ⟨by show (-2147483648 : Int) ≤ _; omega, by show _ ≤ (2147483647 : Int); omega⟩]
    omega
  constructor
  · intro heq
    have hlength := congrArg List.length heq
    rw [List.length_drop, String.length_toList, String.length_toList] at hlength
    have hle : n.length ≤ s.length := by omega
    rw [hval hle, Int.toNat_natCast]
    exact ⟨hle, ⟨by omega, by omega⟩, heq⟩
  · rintro ⟨hle, -, heq⟩
    rwa [hval hle, Int.toNat_natCast] at heq

theorem gives_element_iff (h : env.MemberNames) {v : Value} :
    env.Gives s n i k "s[i]" (.ok v) ↔ 0 ≤ i.val ∧ ∃ c, s.toList[i.val.toNat]? = some c ∧ v = .char c := by
  have hgives : env.Gives s n i k "s[i]" _ := h.gives_element
  exact hgives.iff_eq.trans (Operation.chars_eq_ok env.catalog _)

/-- The part of one character at a position. -/
theorem gives_character (h : env.MemberNames) (hi : 0 ≤ i.val) {c : Char}
    (hc : s.toList[i.val.toNat]? = some c) :
    env.Gives s n i k "s.Substring(i, 1)" (.ok (.string (String.ofList [c]))) := by
  have hone : integerLiteral? "1" = some (.literal .int32 (.int .int32 (.wrap .int32 1)) "1") := by rfl
  have hval : (Word.wrap .int32 1).val = 1 := by decide
  have hgives : env.Gives s n i k "s.Substring(i, 1)" _ :=
    h.gives_substring .start (.literal ⟨_, _, rfl, by decide, rfl⟩ hone) rfl
  obtain ⟨hlt, hget⟩ := List.getElem?_eq_some_iff.mp hc
  rw [hgives.iff_eq, Operation.substring_eq_ok, hval]
  refine ⟨⟨hi, by decide, by omega⟩, ?_⟩
  rw [Operation.eq_string_iff, String.toList_ofList, List.drop_eq_getElem_cons hlt, hget]
  rfl

end Environment.MemberNames

/-- The members of strings agree, in characters. A part is given exactly where it lies within the string, and two parts
make up the string; the index of another string is the first position where such a part is that string, and -1 where
the string does not contain it; a string starts with another one where that is at the start, and ends with it where
the part at its end is that one; and an element is the one character of the part at its position. -/
theorem Environment.string_members_agree {env : Environment} (henv : env.MemberNames) {s n : String}
    (hs : s.length ≤ 2147483647) (hn : n.length ≤ 2147483647) (i k : Word .int32) :
    let gives := env.Gives s n i k
    let found := fun p : Word .int32 => env.Gives s n p k "s.Substring(i, n.Length)" (.ok (.string n))
    gives "s.Length" (.ok (.int32 s.length)) ∧
    ((∃ v, gives "s.Substring(i, k)" (.ok v)) ↔ 0 ≤ i.val ∧ 0 ≤ k.val ∧ i.val + k.val ≤ s.length) ∧
    (∀ v, gives "s.Substring(i, k)" (.ok v) →
      v = .string (String.ofList ((s.toList.drop i.val.toNat).take k.val.toNat))) ∧
    (0 ≤ i.val → i.val ≤ s.length → ∃ a b, gives "s.Substring(0, i)" (.ok (.string a)) ∧
      gives "s.Substring(i)" (.ok (.string b)) ∧ a ++ b = s) ∧
    (∃ (j : Word .int32) (contains startsWith endsWith : Bool),
      gives "s.IndexOf(n)" (.ok (.int .int32 j)) ∧
      (j.val ≠ -1 → 0 ≤ j.val ∧ found j ∧ ∀ p : Word .int32, 0 ≤ p.val → found p → j.val ≤ p.val) ∧
      (j.val = -1 → ∀ p, ¬found p) ∧
      gives "s.Contains(n)" (.ok (.boolean contains)) ∧ (j.val = -1 ↔ contains = false) ∧
      gives "s.StartsWith(n)" (.ok (.boolean startsWith)) ∧ (startsWith ↔ j.val = 0) ∧
      gives "s.EndsWith(n)" (.ok (.boolean endsWith)) ∧
      (endsWith ↔ n.length ≤ s.length ∧ gives "s.Substring(s.Length - n.Length)" (.ok (.string n)))) ∧
    ((∃ v, gives "s[i]" (.ok v)) ↔ 0 ≤ i.val ∧ i.val < s.length) ∧
    (∀ v, gives "s[i]" (.ok v) →
      ∃ c, v = .char c ∧ gives "s.Substring(i, 1)" (.ok (.string (String.ofList [c])))) := by
  intro gives found
  have hsubstring : gives "s.Substring(i, k)" _ := henv.gives_substring .start .length rfl
  have hpart : ∀ v, gives "s.Substring(i, k)" (.ok v) ↔ _ :=
    fun v => hsubstring.iff_eq.trans Operation.substring_eq_ok
  have hfound : ∀ p, found p ↔ _ := fun p => henv.gives_found_iff hn
  refine ⟨?_, ?_, fun v hv => ((hpart v).mp hv).2, henv.gives_halves, ?_, ?_, ?_⟩
  · have hlength : gives "s.Length" _ := henv.gives_length
    have hword : Word.wrap .int32 s.length = Word.clamp .int32 s.length := by
      rw [← Word.wrap_val (Word.clamp .int32 s.length), Word.val_clamp hs]
    refine hlength.iff_eq.mpr ?_
    rw [String.length_toList, Value.int32, hword]
  · constructor
    · rintro ⟨v, hv⟩
      have hwithin := ((hpart v).mp hv).1
      rwa [String.length_toList] at hwithin
    · intro hwithin
      rw [← String.length_toList] at hwithin
      exact ⟨_, (hpart _).mpr ⟨hwithin, rfl⟩⟩
  · obtain ⟨j, hindex, hcases⟩ := henv.gives_indexOf_cases hs
    refine ⟨j, _, _, _, hindex, ?_, ?_, henv.gives_contains, ?_, henv.gives_startsWith, ?_, henv.gives_endsWith,
      henv.isSuffixOf_iff hs hn⟩
    · intro hj
      rcases hcases with ⟨-, hnonneg, hle, hstarts, hleast⟩ | ⟨-, hnone, -⟩
      · refine ⟨hnonneg, (hfound j).mpr ⟨hnonneg, hle, hstarts⟩, fun p hp hp' => ?_⟩
        by_contra hlt
        exact hleast p.val.toNat (by omega) ((hfound p).mp hp').2.2
      · exact absurd hnone hj
    · intro hj p hp
      rcases hcases with ⟨-, hnonneg, -⟩ | ⟨-, -, hnever⟩
      · omega
      · exact hnever _ ((hfound p).mp hp).2.2
    · rcases hcases with ⟨hsome, hnonneg, -⟩ | ⟨hnone, hj, -⟩
      · rw [hsome]
        exact ⟨fun h => by omega, fun h => by cases h⟩
      · rw [hnone]
        exact ⟨fun _ => rfl, fun _ => hj⟩
    · rw [List.isPrefixOf_iff_prefix]
      rcases hcases with ⟨-, hnonneg, -, hstarts, hleast⟩ | ⟨-, hj, hnever⟩
      · constructor
        · intro hstart
          by_contra hne
          exact hleast 0 (by omega) hstart
        · intro hzero
          rwa [hzero] at hstarts
      · exact ⟨fun hstart => absurd hstart (hnever 0), fun hzero => by omega⟩
  · constructor
    · rintro ⟨v, hv⟩
      obtain ⟨hi, c, hc, -⟩ := henv.gives_element_iff.mp hv
      have hlt := (List.getElem?_eq_some_iff.mp hc).1
      rw [String.length_toList] at hlt
      exact ⟨hi, by omega⟩
    · rintro ⟨hi, hlt⟩
      have hlt : i.val.toNat < s.toList.length := by
        rw [String.length_toList]
        omega
      exact ⟨_, henv.gives_element_iff.mpr ⟨hi, _, List.getElem?_eq_getElem hlt, rfl⟩⟩
  · intro v hv
    obtain ⟨hi, c, hc, rfl⟩ := henv.gives_element_iff.mp hv
    exact ⟨c, rfl, henv.gives_character hi hc⟩

/-- Characters count, not bytes: of a string of three characters, the last two are a part, but no two after them. -/
theorem Environment.string_members_agree_accented :
    let env : Environment := ⟨.empty, .empty⟩
    env.MemberNames ∧ (∃ v, env.Gives "añb" "b" (.wrap .int32 1) (.wrap .int32 2) "s.Substring(i, k)" (.ok v)) ∧
      ¬∃ v, env.Gives "añb" "b" (.wrap .int32 2) (.wrap .int32 2) "s.Substring(i, k)" (.ok v) := by
  intro env
  have henv : env.MemberNames := by
    unfold MemberNames
    decide
  have hagree := fun i k => string_members_agree (s := "añb") (n := "b") henv (by decide) (by decide) i k
  refine ⟨henv, (hagree _ _).2.1.mpr (by decide), fun hpart => ?_⟩
  exact absurd ((hagree _ _).2.1.mp hpart) (by decide)

end RowQuery
