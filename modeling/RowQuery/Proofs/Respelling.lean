import RowQuery.Proofs.MemberPhrases
import RowQuery.Proofs.NameFolding
import RowQuery.Proofs.Substitution

/-!
Reading does not depend on how names are spelled, nor on whether a name stands for a parameter or for a
value. Two runs over tokens of the same kinds, with the same literals and with names that differ only in case,
in scopes of which the second one has other expressions for some parameters, go through states that stay
alike: each primitive reader does the same in both, so each phrase does, and at last the whole text. A name is
kept as it is spelled in one place only, after the word `as`, and there both texts have to agree.
-/

namespace RowQuery

open Parse Grammar

/-! ### Tokens and states -/

/-- A token whose text is a value. -/
def TokenKind.isLiteral : TokenKind → Bool
  | .stringLiteral | .integerLiteral | .realLiteral => true
  | _ => false

/-- Two tokens of one kind: literals have the same text, and names the same but for their case. -/
structure Token.Alike (t u : Token) : Prop where
  kind : t.kind = u.kind
  literal : t.kind.isLiteral → t.text = u.text
  name : t.kind = .identifier → Text.fold t.text = Text.fold u.text

instance (t u : Token) : Decidable (t.Alike u) :=
  decidable_of_iff (t.kind = u.kind ∧ (t.kind.isLiteral → t.text = u.text) ∧
      (t.kind = .identifier → Text.fold t.text = Text.fold u.text))
    ⟨fun h => ⟨h.1, h.2.1, h.2.2⟩, fun h => ⟨h.kind, h.literal, h.name⟩⟩

theorem Token.Alike.isWord {t u : Token} (h : t.Alike u) (word : String) : t.isWord word = u.isWord word := by
  by_cases hkind : t.kind = .identifier
  · rw [Token.isWord, Token.isWord, h.kind, Text.sameName_left (h.name hkind)]
  · have hkind' : u.kind ≠ .identifier := fun hu => hkind (h.kind.trans hu)
    rw [Token.isWord, Token.isWord, beq_eq_false_iff_ne.mpr hkind, beq_eq_false_iff_ne.mpr hkind']
    rfl

/-- Tokens alike one by one. A name that comes after the word `as` has to be the same; the mark says whether
the first token is such a name. -/
inductive Respells : Bool → List Token → List Token → Prop
  | nil {field : Bool} : Respells field [] []
  | cons {field : Bool} {t u : Token} {ts us : List Token} (h : t.Alike u)
      (hfield : field → t.kind = .identifier → t.text = u.text) (later : Respells (t.isWord "as") ts us) :
      Respells field (t :: ts) (u :: us)

namespace Respells

variable {field : Bool} {ts us : List Token}

theorem forget (h : Respells field ts us) : Respells false ts us := by
  cases h with
  | nil => exact .nil
  | cons h _ later => exact .cons h (fun hfield => by cases hfield) later

theorem length_eq (h : Respells field ts us) : ts.length = us.length := by
  induction h with
  | nil => rfl
  | cons _ _ _ ih => rw [List.length_cons, List.length_cons, ih]

end Respells

/-- Tokens that differ only in their places are alike. -/
theorem respells_of_lexemes {field : Bool} {ts us : List Token}
    (h : ts.map Token.lexeme = us.map Token.lexeme) : Respells field ts us := by
  induction ts generalizing field us with
  | nil =>
      obtain rfl := List.map_eq_nil_iff.mp h.symm
      exact .nil
  | cons t ts ih =>
      obtain ⟨u, us, rfl, hu, hus⟩ := List.map_eq_cons_iff.mp h.symm
      simp only [Token.lexeme, Lexeme.mk.injEq] at hu
      obtain ⟨hkind, htext⟩ := hu
      exact .cons ⟨hkind.symm, fun _ => htext.symm, fun _ => by rw [htext]⟩ (fun _ _ => htext.symm) (ih hus.symm)

/-- Both texts end without fault, or with faults of one name. -/
inductive Stop.Alike : Stop → Stop → Prop
  | finished {pos pos' : Nat} : Alike (.finished pos) (.finished pos')
  | failed {e e' : CompileError} (h : e.fault.name = e'.fault.name) : Alike (.failed e) (.failed e')

theorem Stop.Alike.refl (stop : Stop) : stop.Alike stop := by
  cases stop with
  | finished pos => exact .finished
  | failed e => exact .failed rfl

/-- What stands for the parameters of a first reading in a second one. The slots that a text gives out are
given out in both in the same order. -/
structure Exchange extends Substitution where
  base : Nat
  param_eq : ∀ ty n, base ≤ n → param ty n = .param ty (slot n)
  slot_succ : ∀ n, base ≤ n → slot (n + 1) = slot n + 1

namespace Exchange

/-- The parameters stay what they are. -/
def same : Exchange := ⟨.rename id, 0, fun _ _ _ => rfl, fun _ _ => rfl⟩

/-- What becomes of an expression. -/
abbrev apply (x : Exchange) : Expr → Expr := Expr.substitute x.toSubstitution

theorem apply_same : same.apply = id := funext Expr.substitute_rename_id

/-- What becomes of what a name stands for. -/
def symbol (x : Exchange) : Symbol → Symbol
  | .expr e => .expr (x.apply e)
  | .lambda l => .lambda l

theorem symbol_same : same.symbol = id := by
  funext sym
  cases sym with
  | expr e => exact congrArg Symbol.expr (congrFun apply_same e)
  | lambda l => rfl

/-- Two scopes that differ in the parameters that were exchanged. -/
structure Scopes (x : Exchange) (scope scope' : Scope) : Prop where
  catalog : scope'.catalog = scope.catalog
  context : scope'.context = scope.context
  symbols : ∀ name, scope'.symbols.lookup name = (scope.symbols.lookup name).map x.symbol
  it : scope'.it = scope.it.map x.apply

theorem scopes_same (scope : Scope) : same.Scopes scope scope where
  catalog := rfl
  context := rfl
  symbols name := by rw [symbol_same, Option.map_id, id]
  it := by rw [apply_same, Option.map_id, id]

/-- Two states of readings of texts that are spelled differently. -/
structure Alike (x : Exchange) (s u : Reading) : Prop where
  token : s.token.Alike u.token
  rest : Respells (s.token.isWord "as") s.rest u.rest
  stop : s.stop.Alike u.stop
  base : x.base ≤ s.slots
  slots : u.slots = x.slot s.slots
  shapes : s.shapes = u.shapes

/-! ### Readers -/

variable {α β σ : Type} {x : Exchange} {scope scope' : Scope} {s u : Reading} {R : α → α → Prop} {S : β → β → Prop}

/-- Two readers give related results from two states or fail with faults of one name, and leave states that are
alike. -/
def AgreeAt (x : Exchange) (scope scope' : Scope) (s u : Reading) (R : α → α → Prop) (p q : Parse α) : Prop :=
  Accords (fun e : CompileError => e.fault.name) R (exec p scope s).1 (exec q scope' u).1 ∧
    x.Alike (exec p scope s).2 (exec q scope' u).2

/-- Two readers that do the same from all states that are alike. -/
def Agree (x : Exchange) (R : α → α → Prop) (p q : Parse α) : Prop :=
  ∀ scope scope' s u, x.Scopes scope scope' → x.Alike s u → x.AgreeAt scope scope' s u R p q

/-- Two readers of which the second one gives what becomes of the result of the first one. -/
abbrev Maps (x : Exchange) (φ : α → α) : Parse α → Parse α → Prop := x.Agree fun a b => b = φ a

theorem agree_pure {a b : α} (h : R a b) : x.Agree R (pure a) (pure b) :=
  fun _ _ _ _ _ hsu => ⟨.ok h, hsu⟩

theorem agree_throw {e f : CompileError} (h : e.fault.name = f.fault.name) : x.Agree R (throw e) (throw f) :=
  fun _ _ _ _ _ hsu => ⟨.error h, hsu⟩

theorem AgreeAt.bind {p q : Parse α} {f g : α → Parse β} (h : x.AgreeAt scope scope' s u R p q)
    (hscope : x.Scopes scope scope') (hnext : ∀ a b, R a b → x.Agree S (f a) (g b)) :
    x.AgreeAt scope scope' s u S (p >>= f) (q >>= g) := by
  obtain ⟨hresult, hstate⟩ := h
  unfold AgreeAt
  rw [exec_bind, exec_bind]
  rcases hp : exec p scope s with ⟨r, m⟩
  rcases hq : exec q scope' u with ⟨r', m'⟩
  rw [hp, hq] at hresult hstate
  cases hresult with
  | ok hab => exact hnext _ _ hab scope scope' m m' hscope hstate
  | error hname => exact ⟨.error hname, hstate⟩

theorem Agree.bind {p q : Parse α} {f g : α → Parse β} (h : x.Agree R p q)
    (hnext : ∀ a b, R a b → x.Agree S (f a) (g b)) : x.Agree S (p >>= f) (q >>= g) :=
  fun scope scope' s u hscope hsu => (h scope scope' s u hscope hsu).bind hscope hnext

/-- Both get the same result and go on with it. -/
theorem Agree.andThen {p q : Parse α} {f g : α → Parse β} (h : x.Agree Eq p q)
    (hnext : ∀ a, x.Agree S (f a) (g a)) : x.Agree S (p >>= f) (q >>= g) := by
  refine h.bind ?_
  rintro a _ rfl
  exact hnext a

/-- The second one goes on with what becomes of the result of the first one. -/
theorem Agree.mapped {p q : Parse α} {f g : α → Parse β} {φ : α → α} (h : x.Maps φ p q)
    (hnext : ∀ a, x.Agree S (f a) (g (φ a))) : x.Agree S (p >>= f) (q >>= g) := by
  refine h.bind ?_
  rintro a _ rfl
  exact hnext a

theorem agree_token : x.Agree Token.Alike token token := fun _ _ _ _ _ hsu => ⟨.ok hsu.token, hsu⟩

theorem AgreeAt.look {f g : Token → Parse β} (h : x.AgreeAt scope scope' s u S (f s.token) (g u.token)) :
    x.AgreeAt scope scope' s u S (token >>= f) (token >>= g) := h

theorem agree_read : x.Agree x.Scopes (read : Parse Scope) read := fun _ _ _ _ hscope hsu => ⟨.ok hscope, hsu⟩

theorem agree_modify {f g : Reading → Reading} (h : ∀ s u, x.Alike s u → x.Alike (f s) (g u)) :
    x.Agree Eq (modify f : Parse PUnit) (modify g) := fun _ _ s u _ hsu => ⟨.ok rfl, h s u hsu⟩

/-- A slot that is given out becomes another one. -/
theorem agree_newSlot : x.Agree (fun n m => x.base ≤ n ∧ m = x.slot n) newSlot newSlot := by
  intro scope scope' s u _ hsu
  refine ⟨.ok ⟨hsu.base, hsu.slots⟩, hsu.token, hsu.rest, hsu.stop, Nat.le_succ_of_le hsu.base, ?_, hsu.shapes⟩
  show u.slots + 1 = x.slot (s.slots + 1)
  rw [x.slot_succ _ hsu.base, hsu.slots]

theorem agree_withReader {p q : Parse α} {f g : Scope → Scope}
    (hfg : ∀ {scope scope'}, x.Scopes scope scope' → x.Scopes (f scope) (g scope')) (h : x.Agree R p q) :
    x.Agree R (withReader f p) (withReader g q) :=
  fun scope scope' s u hscope hsu => h (f scope) (g scope') s u (hfg hscope) hsu

/-- Both move on, and after the word `as` to the same name. -/
theorem AgreeAt.skip {p q : Parse β} (hsu : x.Alike s u)
    (h : ∀ s' u', x.Alike s' u' →
      (s.token.isWord "as" → s'.token.kind = .identifier → s'.token.text = u'.token.text) →
      x.AgreeAt scope scope' s' u' S p q) :
    x.AgreeAt scope scope' s u S (advance >>= fun _ => p) (advance >>= fun _ => q) := by
  have hgo : ∀ {s' u'}, Reads advance scope s () s' → Reads advance scope' u () u' →
      x.AgreeAt scope scope' s' u' S p q →
      x.AgreeAt scope scope' s u S (advance >>= fun _ => p) (advance >>= fun _ => q) := by
    intro s' u' hs hu h
    unfold AgreeAt
    rw [exec_bind, exec_bind, hs, hu]
    exact h
  obtain ⟨token, rest, stop, slots, shapes⟩ := s
  obtain ⟨token', rest', stop', slots', shapes'⟩ := u
  obtain ⟨htoken, hrest, hstop, hbase, hslots, hshapes⟩ := hsu
  cases hrest with
  | cons halike hfield later =>
      exact hgo (reads_advance_iff.mpr (Or.inl ⟨_, _, rfl, rfl⟩)) (reads_advance_iff.mpr (Or.inl ⟨_, _, rfl, rfl⟩))
        (h _ _ ⟨halike, later, hstop, hbase, hslots, hshapes⟩ hfield)
  | nil =>
      cases hstop with
      | finished =>
          refine hgo (reads_advance_iff.mpr (Or.inr ⟨_, rfl, rfl, rfl⟩))
            (reads_advance_iff.mpr (Or.inr ⟨_, rfl, rfl, rfl⟩)) (h _ _ ?_ fun _ _ => rfl)
          exact ⟨⟨rfl, fun _ => rfl, fun _ => rfl⟩, .nil, .finished, hbase, hslots, hshapes⟩
      | failed hname => exact ⟨.error hname, htoken, .nil, .failed hname, hbase, hslots, hshapes⟩

/-- Both move on and then do the same. -/
theorem Agree.skip {p q : Parse β} (h : x.Agree S p q) :
    x.Agree S (advance >>= fun _ => p) (advance >>= fun _ => q) :=
  fun scope scope' _ _ hscope hsu => AgreeAt.skip hsu fun s u halike _ => h scope scope' s u hscope halike

theorem agree_at? (kind : TokenKind) : x.Agree Eq (at? kind) (at? kind) := by
  refine agree_token.bind fun t u htu => agree_pure ?_
  rw [htu.kind]

theorem agree_fail {fault fault' : Fault} (h : fault.name = fault'.name) :
    x.Agree R (fail fault) (fail fault') := agree_token.bind fun _ _ _ => agree_throw h

theorem agree_require (kind : TokenKind) (fault : Fault) : x.Agree Eq (require kind fault) (require kind fault) := by
  refine (agree_at? kind).andThen fun found => ?_
  cases found with
  | true => exact agree_pure rfl
  | false => exact agree_fail rfl

/-- Both move past a token of a kind and then do the same. -/
theorem Agree.expected {kind : TokenKind} {fault : Fault} {p q : Parse β} (h : x.Agree S p q) :
    x.Agree S (expect kind fault >>= fun _ => p) (expect kind fault >>= fun _ => q) := by
  simp only [expect, bind_assoc]
  exact (agree_require kind fault).andThen fun _ => h.skip

/-- A rule whose faults are worded differently, and the rule after the exchange. -/
theorem agree_typed {pos pos' : Nat} {rule between rule' : Catalog → Except Fault Expr}
    (h : ∀ cat, Accords Fault.name Eq (rule cat) (between cat))
    (hrule : ∀ cat, rule' cat = (between cat).map x.apply) :
    x.Maps x.apply (typed pos rule) (typed pos' rule') := by
  refine agree_read.bind fun scope scope' hscope => ?_
  simp only [hscope.catalog, hrule]
  have hbetween := h scope.catalog
  generalize rule scope.catalog = r, between scope.catalog = r' at hbetween ⊢
  cases hbetween with
  | ok heq => exact agree_pure (congrArg x.apply heq.symm)
  | error hname => exact agree_throw hname

theorem agree_repeatUpTo {φ : σ → σ} {step step' : σ → Parse (Option σ)}
    (hstep : ∀ a, x.Maps (Option.map φ) (step a) (step' (φ a))) (n : Nat) (a : σ) :
    x.Maps φ (repeatUpTo step n a) (repeatUpTo step' n (φ a)) := by
  induction n generalizing a with
  | zero => exact agree_pure rfl
  | succ n ih =>
      refine (hstep a).mapped fun next => ?_
      cases next with
      | none => exact agree_pure rfl
      | some b => exact ih b

theorem agree_repeatStep {φ : σ → σ} {step step' : σ → Parse (Option σ)}
    (hstep : ∀ a, x.Maps (Option.map φ) (step a) (step' (φ a))) (a : σ) :
    x.Maps φ (repeatStep step a) (repeatStep step' (φ a)) := by
  intro scope scope' s u hscope hsu
  have hfuel : exec (repeatStep step' (φ a)) scope' u =
      exec (repeatUpTo step' (s.rest.length + 2) (φ a)) scope' u := by
    rw [hsu.rest.length_eq]
    rfl
  unfold AgreeAt
  rw [hfuel]
  exact agree_repeatUpTo hstep _ a scope scope' s u hscope hsu

theorem agree_separated {φ : α → α} {item item' : List α → Parse α}
    (hitem : ∀ before, x.Maps φ (item before) (item' (before.map φ))) :
    x.Maps (List.map φ) (separated item) (separated item') := by
  refine (hitem []).mapped fun first => agree_repeatStep (fun items => ?_) [first]
  refine (agree_at? .comma).andThen fun found => ?_
  cases found with
  | false => exact agree_pure rfl
  | true =>
      refine Agree.skip ((hitem items).mapped fun next => agree_pure ?_)
      rw [Option.map_some, List.map_append, List.map_singleton]

theorem agree_chain {operand : Parse Expr} {operator? : Token → Option (Token → Expr → Expr → Parse Expr)}
    (hoperand : x.Maps x.apply operand operand) (hoperator : ∀ t u, t.Alike u → operator? t = operator? u)
    (hcombine : ∀ t u combine left right, operator? t = some combine →
      x.Maps x.apply (combine t left right) (combine u (x.apply left) (x.apply right))) :
    x.Maps x.apply (chain operand operator?) (chain operand operator?) := by
  refine hoperand.mapped fun first => agree_repeatStep (fun left => ?_) first
  refine agree_token.bind fun t u htu => ?_
  rw [← hoperator t u htu]
  cases hop : operator? t with
  | none => exact agree_pure rfl
  | some combine =>
      refine Agree.skip (hoperand.mapped fun right => ?_)
      exact (hcombine t u combine left right hop).mapped fun e => agree_pure rfl

end Exchange

/-! ### Phrases -/

namespace Grammar

open Exchange

/-- A text that starts with a mark does so in any case. -/
theorem fold_unmarked {text text' : String} (h : Text.fold text = Text.fold text') :
    Text.fold (unmarked text) = Text.fold (unmarked text') := by
  have hcaseless : Text.Caseless (· == '@') := Text.caseless_of_capitals (by decide)
  have hmark : ∀ c : Char, c.toLower = Char.toLower '@' → c = '@' :=
    fun c hc => beq_iff_eq.mp (hcaseless.congr hc)
  -- a mark in one text is one in the other
  have hmarked : ∀ {text text' : String} {c : Char} {cs : List Char}, Text.fold text = Text.fold text' →
      text.toList = '@' :: c :: cs →
      ∃ d ds, text'.toList = '@' :: d :: ds ∧ (d :: ds).map Char.toLower = (c :: cs).map Char.toLower := by
    intro text text' c cs h htext
    have hlists := Text.fold_eq_iff.mp h
    rw [htext] at hlists
    obtain ⟨a, as, htext', ha, has⟩ := List.map_eq_cons_iff.mp hlists.symm
    obtain ⟨d, ds, rfl, -, -⟩ := List.map_eq_cons_iff.mp has
    obtain rfl := hmark a ha
    exact ⟨d, ds, htext', has⟩
  by_cases hplain : ∃ c cs, text.toList = '@' :: c :: cs
  · obtain ⟨c, cs, htext⟩ := hplain
    obtain ⟨d, ds, htext', hchars⟩ := hmarked h htext
    rw [unmarked_of_mark htext, unmarked_of_mark htext']
    refine Text.fold_eq_iff.mpr ?_
    rw [String.toList_ofList, String.toList_ofList, hchars]
  · have hplain' : ∀ c cs, text'.toList ≠ '@' :: c :: cs := by
      intro c cs htext'
      obtain ⟨d, ds, htext, -⟩ := hmarked h.symm htext'
      exact hplain ⟨d, ds, htext⟩
    rw [unmarked_of_plain fun c cs htext => hplain ⟨c, cs, htext⟩, unmarked_of_plain hplain']
    exact h

variable {x : Exchange}

/-- Both read the same name but for its case, and the very same one where the token is. -/
theorem identifier_alike (scope scope' : Scope) {s u : Reading} (hsu : x.Alike s u) :
    x.AgreeAt scope scope' s u (fun name name' => Text.fold name = Text.fold name' ∧
      ((s.token.kind = .identifier → s.token.text = u.token.text) → name = name')) identifier identifier := by
  unfold AgreeAt
  rw [exec_identifier, exec_identifier, ← hsu.token.kind]
  by_cases hkind : s.token.kind = .identifier
  · rw [if_pos hkind, if_pos hkind]
    exact ⟨.ok ⟨fold_unmarked (hsu.token.name hkind), fun htext => congrArg unmarked (htext hkind)⟩, hsu⟩
  · rw [if_neg hkind, if_neg hkind]
    exact ⟨.error rfl, hsu⟩

theorem agree_identifier : x.Agree (fun name name' => Text.fold name = Text.fold name') identifier identifier := by
  intro scope scope' s u _ hsu
  obtain ⟨hresult, hstate⟩ := identifier_alike scope scope' hsu
  exact ⟨hresult.mono fun _ _ h => h.1, hstate⟩

/-- Levels of nesting whose readers do the same in both texts. -/
structure Level.Steady (x : Exchange) (inner : Level) : Prop where
  expression : x.Maps x.apply inner.expression inner.expression
  operand : x.Maps x.apply inner.operand inner.operand

variable {inner : Level}

/-- A field gets the very same name: that of a property, or the one after the word `as`. -/
theorem agree_fieldName (pos pos' : Nat) (e : Expr) :
    x.Agree Eq (fieldName pos e) (fieldName pos' (x.apply e)) := by
  intro scope scope' s u hscope hsu
  have hmissing : x.AgreeAt scope scope' s u Eq (throw ⟨.missingAsClause, pos⟩ : Parse String)
      (throw ⟨.missingAsClause, pos'⟩) :=
    agree_throw (Eq.refl (Fault.name .missingAsClause)) scope scope' s u hscope hsu
  refine AgreeAt.look ?_
  rw [← hsu.token.isWord]
  by_cases has : s.token.isWord "as"
  · rw [if_pos has, if_pos has]
    refine AgreeAt.skip hsu fun s' u' halike htext => ?_
    refine (identifier_alike scope scope' halike).bind hscope fun name name' hname => ?_
    exact Agree.skip (agree_pure (hname.2 (htext has)))
  · rw [if_neg has, if_neg has]
    cases e with
    | property ty p target => exact agree_pure rfl scope scope' s u hscope hsu
    | param ty n =>
        rcases x.leaf ty n with ⟨m, hm⟩ | ⟨v, hv⟩
        · rw [apply, Expr.substitute, hm]
          exact hmissing
        · rw [apply, Expr.substitute, hv]
          exact hmissing
    | _ => exact hmissing

theorem agree_typeForm (pos pos' : Nat) (ty : Ty) : x.Agree Eq (typeForm pos ty) (typeForm pos' ty) := by
  refine (agree_at? .question).andThen fun found => ?_
  cases found with
  | false => exact agree_pure rfl
  | true =>
      cases Typing.nullable ty with
      | ok form => exact Agree.skip (agree_pure rfl)
      | error fault => exact agree_throw rfl

/-- An expression that takes up the token at hand. -/
theorem agree_leaf {e e' : Expr} (h : e' = x.apply e) :
    x.Maps x.apply (do advance; return e) (do advance; return e') := Agree.skip (agree_pure h)

theorem agree_literal {reading : Option Expr} {fault fault' : Fault} (h : fault.name = fault'.name)
    (hliteral : ∀ e, reading = some e → ∃ t v source, e = .literal t v source) :
    x.Maps x.apply (literal reading fault) (literal reading fault') := by
  cases reading with
  | none => exact agree_fail h
  | some e =>
      obtain ⟨ty, v, source, rfl⟩ := hliteral e rfl
      exact agree_leaf rfl

theorem agree_implicit : x.Maps x.apply implicit implicit := by
  refine agree_read.bind fun scope scope' hscope => ?_
  rw [hscope.it]
  cases scope.it with
  | none => exact agree_fail rfl
  | some it => exact agree_leaf rfl

/-! ### Operators -/

theorem unaryOperator?_alike {t u : Token} (h : t.Alike u) : unaryOperator? t = unaryOperator? u := by
  simp only [unaryOperator?, h.kind, h.isWord]

section

variable (hinner : inner.Steady x)

include hinner

theorem agree_arguments :
    x.Maps (List.map x.apply) (arguments inner) (arguments inner) := agree_separated fun _ => hinner.expression

theorem agree_argumentList : x.Maps (List.map x.apply) (argumentList inner) (argumentList inner) := by
  have hclose : ∀ {p : Parse (List Expr)}, x.Maps (List.map x.apply) p p →
      x.Maps (List.map x.apply) (do let args ← p; expect .closeParen .closeParenOrCommaExpected; return args)
        (do let args ← p; expect .closeParen .closeParenOrCommaExpected; return args) :=
    fun hp => hp.mapped fun args => Agree.expected (agree_pure rfl)
  refine Agree.expected ((agree_at? .closeParen).andThen fun found => ?_)
  cases found with
  | true => exact hclose (agree_pure rfl)
  | false => exact hclose (agree_arguments hinner)

theorem agree_member (receiver : Typing.Receiver) :
    x.Maps x.apply (member inner receiver) (member inner (receiver.substitute x.toSubstitution)) := by
  refine agree_token.bind fun t u _ => agree_identifier.bind fun name name' hname => ?_
  refine Agree.skip ((agree_at? .openParen).andThen fun found => ?_)
  cases found with
  | false =>
      exact agree_typed (fun cat => Typing.property_respelled hname cat receiver)
        fun cat => Typing.property_substitute receiver name'
  | true =>
      have hcall : x.Maps x.apply
          (do let args ← argumentList inner; typed t.pos (Typing.methodCall · receiver name args))
          (do
            let args ← argumentList inner
            typed u.pos (Typing.methodCall · (receiver.substitute x.toSubstitution) name' args)) :=
        (agree_argumentList hinner).mapped fun args =>
          agree_typed (fun cat => Typing.methodCall_respelled hname cat receiver args)
            fun cat => Typing.methodCall_substitute receiver name' args
      refine agree_read.bind fun scope scope' hscope => ?_
      simp only [hscope.catalog, Typing.Receiver.aggregated?_substitute, Typing.Receiver.expr?_substitute,
        receiver.aggregated?_respelled hname scope.catalog]
      rcases receiver.aggregated? scope.catalog name' with _ | item
      · exact hcall
      · rcases receiver.expr? with _ | source
        · exact hcall
        · refine agree_newSlot.bind ?_
          rintro slot _ ⟨hslot, rfl⟩
          have hitem : ∀ {scope scope' : Scope}, x.Scopes scope scope' →
              x.Scopes { scope with it := some (.param item slot) }
                { scope' with it := some (.param item (x.slot slot)) } :=
            fun h => ⟨h.catalog, h.context, h.symbols, congrArg some (x.param_eq item slot hslot).symm⟩
          refine (agree_withReader hitem (agree_argumentList hinner)).mapped fun args => ?_
          exact agree_typed (fun cat => Typing.aggregate_respelled hname cat source slot args)
            fun cat => Typing.aggregate_substitute source slot name' args

theorem agree_element (e : Expr) : x.Maps x.apply (element inner e) (element inner (x.apply e)) := by
  refine agree_token.bind fun t u _ => Agree.skip ((agree_arguments hinner).mapped fun args => ?_)
  exact Agree.expected (agree_typed (fun _ => .refl _) fun cat => Typing.element_substitute e args)

theorem agree_field (before : List (String × Expr)) :
    x.Maps (Prod.map id x.apply) (field inner before) (field inner (before.map (Prod.map id x.apply))) := by
  refine agree_token.bind fun t u _ => hinner.expression.mapped fun e => ?_
  refine (agree_fieldName _ _ e).andThen fun name => ?_
  have hany : (before.map (Prod.map id x.apply)).any (·.1 == name) = before.any (·.1 == name) := by
    rw [List.any_map]
    rfl
  rw [hany]
  split
  · exact Agree.bind (R := Eq) (agree_throw rfl) fun _ _ _ => agree_pure rfl
  · exact agree_pure rfl

theorem agree_projection : x.Maps x.apply (projection inner) (projection inner) := by
  refine Agree.skip (Agree.expected ((agree_separated (agree_field hinner)).mapped fun fields => ?_))
  refine Agree.expected ((agree_modify fun s u hsu => ?_).andThen fun _ => agree_pure ?_)
  · refine ⟨hsu.token, hsu.rest, hsu.stop, hsu.base, hsu.slots, ?_⟩
    simp only [List.map_map, Function.comp_def, Prod.map_fst, Prod.map_snd, id_eq, Expr.ty_substitute, hsu.shapes]
  · exact Typing.projection_substitute fields

theorem agree_conditionalCall : x.Maps x.apply (conditionalCall inner) (conditionalCall inner) := by
  refine agree_token.bind fun t u _ => Agree.skip ((agree_argumentList hinner).mapped fun args => ?_)
  rcases args with _ | ⟨test, _ | ⟨yes, _ | ⟨no, _ | ⟨more, rest⟩⟩⟩⟩
  case cons.cons.cons.nil =>
    exact agree_typed (fun _ => .refl _) fun cat => Typing.conditional_substitute test yes no
  all_goals exact agree_throw rfl

theorem agree_typeAccess (ty : Ty) : x.Maps x.apply (typeAccess inner ty) (typeAccess inner ty) := by
  refine agree_token.bind fun t u _ => Agree.skip ((agree_typeForm _ _ ty).andThen fun form => ?_)
  refine (agree_at? .openParen).andThen fun found => ?_
  cases found with
  | true =>
      refine (agree_argumentList hinner).mapped fun args => ?_
      exact agree_typed (fun _ => .refl _) fun cat => Typing.construction_substitute form args
  | false => exact Agree.expected (agree_member hinner (.type form))

theorem agree_named {text text' : String} (h : Text.fold text = Text.fold text') :
    x.Maps x.apply (named inner text) (named inner text') := by
  refine agree_read.bind fun scope scope' hscope => ?_
  simp only [hscope.context, Ty.predefined?_respelled h, scope.context.lookup?_respelled h, hscope.symbols,
    hscope.it, h]
  split
  · rename_i ty _
    exact agree_typeAccess hinner ty
  · rcases scope.symbols.lookup (Text.fold text') with _ | (e | l)
    · rcases scope.it with _ | it
      · exact agree_fail rfl
      · exact agree_member hinner (.value it)
    · exact agree_leaf rfl
    · refine agree_token.bind fun t u _ => Agree.skip ((agree_argumentList hinner).mapped fun args => ?_)
      exact agree_typed (fun _ => .refl _) fun cat => Typing.invocation_substitute l args

theorem agree_word {text text' : String} (h : Text.fold text = Text.fold text') :
    x.Maps x.apply (word inner text) (word inner text') := by
  unfold word
  rw [h]
  split
  · exact agree_leaf rfl
  · exact agree_leaf rfl
  · exact agree_leaf rfl
  · exact agree_implicit
  · exact agree_conditionalCall hinner
  · exact agree_projection hinner
  · exact agree_named hinner h

theorem agree_primaryStart : x.Maps x.apply (primaryStart inner) (primaryStart inner) := by
  refine agree_token.bind fun t u htu => ?_
  have hliteral := htu.literal
  have hname := htu.name
  simp only [← htu.kind]
  split
  · rename_i hkind
    exact agree_word hinner (hname hkind)
  · rename_i hkind
    rw [hkind] at hliteral
    rw [hliteral rfl]
    exact agree_literal rfl fun _ => exists_literal_of_quoted
  · rename_i hkind
    rw [hkind] at hliteral
    rw [hliteral rfl]
    exact agree_literal rfl fun _ => exists_literal_of_integer
  · rename_i hkind
    rw [hkind] at hliteral
    rw [hliteral rfl]
    exact agree_literal rfl fun _ => exists_literal_of_real
  · exact Agree.skip (hinner.expression.mapped fun e => Agree.expected (agree_pure rfl))
  · exact agree_fail rfl

theorem agree_nextMember (e : Expr) :
    x.Maps (Option.map x.apply) (nextMember inner e) (nextMember inner (x.apply e)) := by
  refine agree_token.bind fun t u htu => ?_
  rw [← htu.kind]
  split
  · exact Agree.skip ((agree_member hinner (.value e)).mapped fun _ => agree_pure rfl)
  · exact (agree_element hinner e).mapped fun _ => agree_pure rfl
  · exact agree_pure rfl

theorem agree_primary : x.Maps x.apply (primary inner) (primary inner) :=
  (agree_primaryStart hinner).mapped fun e => agree_repeatStep (agree_nextMember hinner) e

/-- A minus sign goes into the literal after it, which is spelled the same in both texts. -/
theorem agree_unary : x.Maps x.apply (unary inner) (unary inner) := by
  refine agree_token.bind fun t u htu => ?_
  rw [← unaryOperator?_alike htu]
  cases unaryOperator? t with
  | none => exact agree_primary hinner
  | some op =>
      refine Agree.skip (agree_token.bind fun next next' hnext => ?_)
      simp only [← hnext.kind]
      split
      · rename_i hnumber
        have hliteral : next.kind.isLiteral := by
          rcases hnumber.2 with hkind | hkind <;> rw [hkind] <;> rfl
        have hname : next.kind ≠ .identifier := by
          rcases hnumber.2 with hkind | hkind <;> rw [hkind] <;> decide
        have hsign : x.Agree Eq
            (modify fun s => { s with token := ⟨next.kind, "-" ++ next.text, t.pos⟩ } : Parse PUnit)
            (modify fun s => { s with token := ⟨next.kind, "-" ++ next'.text, u.pos⟩ }) := by
          refine agree_modify fun s s' hs => ⟨⟨rfl, fun _ => ?_, fun hkind => absurd hkind hname⟩, ?_,
            hs.stop, hs.base, hs.slots, hs.shapes⟩
          · exact congrArg ("-" ++ ·) (hnext.literal hliteral)
          · rw [Token.isWord, beq_eq_false_iff_ne.mpr hname]
            exact hs.rest.forget
        exact hsign.andThen fun _ => agree_primary hinner
      · refine hinner.operand.mapped fun e => ?_
        exact agree_typed (fun cat => Typing.unary_symbolic cat op t.text u.text e)
          fun cat => Typing.unary_substitute op u.text e

end

theorem operators_alike {t u : Token} (h : t.Alike u) (k : Nat) : operators k t = operators k u := by
  unfold operators
  split <;> simp only [multiplicativeOperator?, h.kind, h.isWord]

theorem agree_combine {k : Nat} {t u : Token} {combine : Token → Expr → Expr → Parse Expr}
    (hop : operators k t = some combine) (left right : Expr) :
    x.Maps x.apply (combine t left right) (combine u (x.apply left) (x.apply right)) := by
  have hjoining : ∀ {rule : Catalog → String → Expr → Expr → Except Fault Expr}, Typing.Symbolic rule →
      (∀ cat symbol, rule cat symbol (x.apply left) (x.apply right) = (rule cat symbol left right).map x.apply) →
      x.Maps x.apply (joining rule t left right) (joining rule u (x.apply left) (x.apply right)) :=
    fun hsymbol hrule => agree_typed (fun cat => hsymbol cat t.text u.text left right) fun cat => hrule cat u.text
  unfold operators at hop
  split at hop
  · split at hop <;> cases hop
    exact hjoining (Typing.logical_symbolic .orElse) fun _ symbol => Typing.logical_substitute _ symbol left right
  · split at hop <;> cases hop
    exact hjoining (Typing.logical_symbolic .andAlso) fun _ symbol => Typing.logical_substitute _ symbol left right
  · obtain ⟨op, -, rfl⟩ := Option.map_eq_some_iff.mp hop
    exact hjoining (Typing.comparison_symbolic op) fun _ symbol => Typing.comparison_substitute op symbol left right
  · split at hop <;> cases hop
    · exact hjoining Typing.sum_symbolic fun _ symbol => Typing.sum_substitute symbol left right
    · exact hjoining (Typing.arithmetic_symbolic _ _) fun _ symbol => Typing.arithmetic_substitute _ _ symbol left right
    · exact agree_pure rfl
  · obtain ⟨op, -, rfl⟩ := Option.map_eq_some_iff.mp hop
    exact hjoining (Typing.arithmetic_symbolic _ op) fun _ symbol =>
      Typing.arithmetic_substitute _ op symbol left right
  · cases hop

theorem agree_reader_of_succ {k : Nat} (hk : 1 ≤ k ∧ k ≤ 5)
    (h : x.Maps x.apply (reader inner (k + 1)) (reader inner (k + 1))) :
    x.Maps x.apply (reader inner k) (reader inner k) := by
  rw [reader_eq_chain hk]
  exact agree_chain h (fun _ _ htu => operators_alike htu k) fun _ _ _ left right hop =>
    agree_combine hop left right

theorem agree_disjunction (hinner : inner.Steady x) : x.Maps x.apply (disjunction inner) (disjunction inner) := by
  have hunary : x.Maps x.apply (reader inner 6) (reader inner 6) := agree_unary hinner
  have hmultiplicative := agree_reader_of_succ (by decide) hunary
  have hadditive := agree_reader_of_succ (by decide) hmultiplicative
  have hcomparison := agree_reader_of_succ (by decide) hadditive
  have hconjunction := agree_reader_of_succ (by decide) hcomparison
  exact agree_reader_of_succ (by decide) hconjunction

theorem agree_conditional (hinner : inner.Steady x) : x.Maps x.apply (conditional inner) (conditional inner) := by
  refine agree_token.bind fun t u _ => (agree_disjunction hinner).mapped fun test => ?_
  refine (agree_at? .question).andThen fun found => ?_
  cases found with
  | false => exact agree_pure rfl
  | true =>
      refine Agree.skip (hinner.expression.mapped fun yes => Agree.expected ?_)
      refine hinner.expression.mapped fun no => ?_
      exact agree_typed (fun _ => .refl _) fun cat => Typing.conditional_substitute test yes no

theorem level_steady (x : Exchange) (n : Nat) : (level n).Steady x := by
  induction n with
  | zero => exact ⟨agree_fail rfl, agree_fail rfl⟩
  | succ n ih => exact ⟨agree_conditional ih, agree_unary ih⟩

theorem agree_whole (x : Exchange) (result : Option Ty) : x.Maps x.apply (whole result) (whole result) := by
  refine agree_token.bind fun t u _ => (level_steady x maxDepth).expression.mapped fun e => ?_
  have hresult : x.Maps x.apply (typed t.pos (Typing.result · e result))
      (typed u.pos (Typing.result · (x.apply e) result)) :=
    agree_typed (fun _ => .refl _) fun cat => Typing.result_substitute e result
  exact hresult.mapped fun converted => (agree_require _ _).andThen fun _ => agree_pure rfl

end Grammar

/-! ### Compilation -/

namespace Environment

variable {α : Type} {x : Exchange} {params params' : List Param} {args args' : List Argument} {text text' : String}
  {shapes : Shapes}

/-- A text and another one with tokens alike are read alike in scopes that differ in the parameters that were
exchanged. -/
theorem reading_alike (env : Environment) {symbols symbols' : Symbols} {phrase : Parse α} {φ : α → α}
    (hsymbols : Symbols.ofText params args = .ok symbols) (hsymbols' : Symbols.ofText params' args' = .ok symbols')
    (hscope : x.Scopes (env.scope params symbols) (env.scope params' symbols')) (hphrase : x.Maps φ phrase phrase)
    (hstart : x.Alike (start params text shapes) (start params' text' shapes)) :
    Accords (fun e : CompileError => e.fault.name) (fun r r' => r' = Prod.map φ x.slot r)
        ((env.reading params args text phrase).exec shapes).1
        ((env.reading params' args' text' phrase).exec shapes).1 ∧
      ((env.reading params args text phrase).exec shapes).2 =
        ((env.reading params' args' text' phrase).exec shapes).2 := by
  obtain ⟨hresult, hstate⟩ := hphrase.skip _ _ _ _ hscope hstart
  simp only [reading, Shaping.exec, hsymbols, hsymbols', exec] at hresult hstate ⊢
  generalize (do advance; phrase : Parse α) (env.scope params symbols) (start params text shapes) = r,
    (do advance; phrase : Parse α) (env.scope params' symbols') (start params' text' shapes) = r'
    at hresult hstate ⊢
  obtain ⟨result, after⟩ := r
  obtain ⟨result', after'⟩ := r'
  cases hresult with
  | ok heq => exact ⟨.ok (Prod.ext heq hstate.slots), hstate.shapes⟩
  | error hname => exact ⟨.error hname, hstate.shapes⟩

/-- Nothing is read where the names of the parameters and arguments are at fault. -/
theorem compile_of_symbols {env : Environment} {decls : List ParamDecl} {result : Option Ty} {fault : Fault}
    (h : Symbols.ofText (bindParams decls) args = .error fault) :
    (env.compile decls result text args).exec shapes = (.error ⟨fault, 0⟩, shapes) := by
  have hreading : (env.reading (bindParams decls) args text (whole result)).exec shapes =
      (.error ⟨fault, 0⟩, shapes) := by
    simp only [reading, Shaping.exec, h]
  rw [compile, Shaping.exec_bind, hreading]

theorem compile_exchanged (env : Environment) {decls decls' : List ParamDecl} {symbols symbols' : Symbols}
    (result : Option Ty) (hsymbols : Symbols.ofText (bindParams decls) args = .ok symbols)
    (hsymbols' : Symbols.ofText (bindParams decls') args' = .ok symbols')
    (hscope : x.Scopes (env.scope (bindParams decls) symbols) (env.scope (bindParams decls') symbols'))
    (hstart : x.Alike (start (bindParams decls) text shapes) (start (bindParams decls') text' shapes)) :
    Accords (fun e : CompileError => e.fault.name)
        (fun l l' => l' = ⟨bindParams decls', x.apply l.body, x.slot l.slots⟩)
        ((env.compile decls result text args).exec shapes).1
        ((env.compile decls' result text' args').exec shapes).1 ∧
      ((env.compile decls result text args).exec shapes).2 =
        ((env.compile decls' result text' args').exec shapes).2 := by
  obtain ⟨hresult, hshapes⟩ :=
    env.reading_alike hsymbols hsymbols' hscope (agree_whole x result) hstart
  unfold compile
  rw [Shaping.exec_bind, Shaping.exec_bind]
  generalize (env.reading (bindParams decls) args text (whole result)).exec shapes = r,
    (env.reading (bindParams decls') args' text' (whole result)).exec shapes = r' at hresult hshapes ⊢
  obtain ⟨outcome, made⟩ := r
  obtain ⟨outcome', made'⟩ := r'
  cases hresult with
  | ok heq =>
      subst heq
      exact ⟨.ok rfl, hshapes⟩
  | error hname => exact ⟨.error hname, hshapes⟩

/-- Two outcomes of compilation: the same expression, or faults of one name, and the same shapes made. -/
def SameOutcome {α : Type} (r r' : Except CompileError α × Shapes) : Prop :=
  Accords (fun e : CompileError => e.fault.name) Eq r.1 r'.1 ∧ r.2 = r'.2

/-- The state before a text is read is like that before another one with tokens alike. -/
theorem start_alike (params : List Param) (shapes : Shapes)
    (h : Respells false (scan text).tokens (scan text').tokens)
    (hstop : ∃ pos, (scan text).stop = .finished pos) (hstop' : ∃ pos, (scan text').stop = .finished pos) :
    Exchange.same.Alike (start params text shapes) (start params text' shapes) := by
  obtain ⟨pos, hpos⟩ := hstop
  obtain ⟨pos', hpos'⟩ := hstop'
  refine ⟨⟨rfl, fun _ => rfl, fun _ => rfl⟩, h, ?_, Nat.zero_le _, rfl, rfl⟩
  simp only [start, hpos, hpos']
  exact .finished

theorem compile_alike (env : Environment) (params : List ParamDecl) (result : Option Ty) (args : List Argument)
    (shapes : Shapes) (h : Respells false (scan text).tokens (scan text').tokens)
    (hstop : ∃ pos, (scan text).stop = .finished pos) (hstop' : ∃ pos, (scan text').stop = .finished pos) :
    SameOutcome ((env.compile params result text args).exec shapes)
      ((env.compile params result text' args).exec shapes) := by
  cases hsymbols : Symbols.ofText (bindParams params) args with
  | error fault =>
      rw [compile_of_symbols hsymbols, compile_of_symbols hsymbols]
      exact ⟨.refl _, rfl⟩
  | ok symbols =>
      obtain ⟨hresult, hshapes⟩ := env.compile_exchanged result hsymbols hsymbols
        (Exchange.scopes_same _) (start_alike (bindParams params) shapes h hstop hstop')
      refine ⟨?_, hshapes⟩
      have hparams : ∀ {text l}, ((env.compile params result text args).exec shapes).1 = .ok l →
          l.params = bindParams params := fun h => (Compiles.derives ⟨shapes, h⟩).1
      generalize hfirst : ((env.compile params result text args).exec shapes).1 = r,
        ((env.compile params result text' args).exec shapes).1 = r' at hresult ⊢
      cases hresult with
      | ok heq =>
          refine .ok ?_
          rw [heq, Exchange.apply_same, ← hparams hfirst]
          rfl
      | error hname => exact .error hname

end Environment

end RowQuery
