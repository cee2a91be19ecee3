import RowQuery.Proofs.Embedding
import RowQuery.Proofs.Failing

/-!
Operands as texts. A text that is read to its end as a phrase of a level is an operand of the operators of that level
and of all looser ones: on their left it may itself be a chain of operands with operators of the same level, and on
their right it is a phrase of the next tighter level. Two operands with an operator between them are what the typing
rule of the operator makes of the two expressions, where the slots of the second one are moved up; the text compiles if
the rule allows them, is refused with the fault that the rule finds, and evaluates the one after the other.
-/

namespace RowQuery

open Parse Grammar Lexeme

/-! ### Operands before an operator -/

namespace Grammar

/-- Operands are read with the operators of a level between them, and it is left open whether another one follows. -/
inductive Gathered (inner : Level) (k : Nat) (scope : Scope) : Reading → Expr → Reading → Prop
  | first {s s' : Reading} {e : Expr} (h : Reads (reader inner (k + 1)) scope s e s') : Gathered inner k scope s e s'
  | next {s m s' : Reading} {left e : Expr} (h : Gathered inner k scope s left m)
      (hnext : Reads (nextOperand (reader inner (k + 1)) (operators k) left) scope m (some e) s') :
      Gathered inner k scope s e s'

namespace Gathered

variable {inner : Level} {k : Nat} {scope : Scope} {s s' : Reading} {e : Expr}

theorem of_reads (hinner : inner.Derived) (hk : 1 ≤ k ∧ k ≤ 5) (h : Reads (reader inner k) scope s e s') :
    Gathered inner k scope s e s' := by
  obtain ⟨a, m, ha, hsteps⟩ := (reads_reader hinner hk).mp h
  have hgathered : Gathered inner k scope s a m := .first ha
  clear ha h
  induction hsteps with
  | stop hnone =>
      rcases reads_nextOperand.mp hnone with ⟨_, _, _, _, _, _, _, _, _, hsome⟩ | ⟨_, _, rfl⟩
      · cases hsome
      · exact hgathered
  | next hsome _ ih => exact ih (hgathered.next hsome)

/-- The operands that were gathered start the phrases that are read there. -/
theorem iterates_iff (h : Gathered inner k scope s e s') :
    ∃ a u, Reads (reader inner (k + 1)) scope s a u ∧ ∀ z final,
      Iterates (nextOperand (reader inner (k + 1)) (operators k)) scope a u z final ↔
      Iterates (nextOperand (reader inner (k + 1)) (operators k)) scope e s' z final := by
  induction h with
  | first h => exact ⟨_, _, h, fun _ _ => Iff.rfl⟩
  | next _ hnext ih =>
      obtain ⟨a, u, ha, hsteps⟩ := ih
      refine ⟨a, u, ha, fun z final => (hsteps z final).trans ⟨fun hlater => ?_, .next hnext⟩⟩
      cases hlater with
      | stop hnone =>
          obtain ⟨hne, -⟩ := hnext.unique hnone
          cases hne
      | next hsome hlater =>
          obtain ⟨heq, rfl⟩ := hnext.unique hsome
          cases heq
          exact hlater

end Gathered

/-- Operands are gathered in front of what does not continue the last one. -/
theorem gathered_portable {n m k : Nat} (hnm : n ≤ m) :
    Portable (Stops (k + 1)) (fun f e => e.mapSlots f) (Gathered (level n) k) (Gathered (level m) k) := by
  intro g scope s t s' e hscope hmirrors hread hsettled
  have hoperand : g.Agrees (k + 1) (reader (level n) (k + 1)) (reader (level m) (k + 1)) :=
    Graft.reader_agrees (g.levels hnm) (Nat.succ_pos k)
  induction hread with
  | first h =>
      obtain ⟨t', ht', hmirrors'⟩ := hoperand hscope hmirrors _ _ h hsettled
      exact ⟨t', .first ht', hmirrors'⟩
  | next _ hnext ih =>
      -- an operator stands between two operands, so the text is not at its end there
      obtain ⟨u, hu, hbetween⟩ := ih (Graft.settled_of_inside _ (Graft.inside_of_operand hnext))
      obtain ⟨t', ht', hmirrors'⟩ := Graft.exists_operand hoperand hscope hbetween hnext hsettled
      exact ⟨t', .next hu ht', hmirrors'⟩

/-- Operands that make up lexemes are gathered from the front of what is left. -/
def TakesChain (inner : Level) (k : Nat) (scope : Scope) (m : Nat × Shapes) (ls : List Lexeme) (e : Expr)
    (m' : Nat × Shapes) (rest : List Lexeme) : Prop :=
  ∀ s : Reading, s.Ahead (ls ++ rest) → s.made = m →
    ∃ s', Gathered inner k scope s e s' ∧ s'.Ahead rest ∧ s'.made = m'

/-! ### Operators -/

/-- A lexeme is an operator of a level with a typing rule. -/
structure Joins (k : Nat) (l : Lexeme) (rule : Catalog → String → Expr → Expr → Except Fault Expr) : Prop where
  level : 1 ≤ k ∧ k ≤ 5
  whole : l.Whole
  operator : ∀ t : Token, t.lexeme = l → operators k t = some (joining rule)
  closes : ∀ rest, Closes (l :: rest)
  stops : ∀ rest, Stops (k + 1) (l :: rest)

section

variable {scope : Scope} {inner : Level} {s s' : Reading} {e left right : Expr} {k : Nat} {l : Lexeme}
  {rule : Catalog → String → Expr → Expr → Except Fault Expr} {ls₁ ls₂ rest : List Lexeme} {m m₁ m₂ : Nat × Shapes}

/-- After an operator and an operand the rule of the operator decides. -/
theorem Joins.step (h : Joins k l rule) (hs : s.Ahead (l :: (ls₂ ++ rest))) (hm : s.made = m₁)
    (hright : Takes (reader inner (k + 1)) scope m₁ ls₂ right m₂ rest) (left : Expr) :
    ∃ s', s'.Ahead rest ∧ s'.made = m₂ ∧
      (∀ joined, rule scope.catalog l.text left right = .ok joined →
        Reads (nextOperand (reader inner (k + 1)) (operators k) left) scope s (some joined) s') ∧
      ∀ fault, rule scope.catalog l.text left right = .error fault →
        Fails (nextOperand (reader inner (k + 1)) (operators k) left) scope s ⟨fault, s.token.pos⟩ := by
  have hoperator : operators k s.token = some (joining rule) := h.operator s.token hs.shows
  have htext : s.token.text = l.text := congrArg Lexeme.text hs.shows
  obtain ⟨u, hu, haheadu, hmadeu⟩ := exists_advance scope hs.rest hs.finished
  obtain ⟨s', hs', hahead, hmade⟩ := hright u haheadu (hmadeu.trans hm)
  refine ⟨s', hahead, hmade, fun joined htyped => ?_, fun fault htyped => ?_⟩
  · rw [← htext] at htyped
    exact reads_nextOperand.mpr
      (Or.inl ⟨_, u, right, s', joined, hoperator, hu, hs', reads_typed.mpr ⟨htyped, rfl⟩, rfl⟩)
  · rw [← htext] at htyped
    refine (reads_token.mpr ⟨rfl, rfl⟩).fails ?_
    rw [hoperator]
    exact hu.fails (hs'.fails ((fails_typed htyped).bind _))

theorem Joins.takes (h : Joins k l rule) (hinner : inner.Derived)
    (hleft : TakesChain inner k scope m ls₁ left m₁ (l :: (ls₂ ++ rest)))
    (hright : Takes (reader inner (k + 1)) scope m₁ ls₂ right m₂ rest)
    (htyped : rule scope.catalog l.text left right = .ok e) (hstops : Stops k rest) :
    Takes (reader inner k) scope m (ls₁ ++ l :: ls₂) e m₂ rest := by
  intro s hs hm
  rw [List.append_assoc] at hs
  obtain ⟨u, hu, haheadu, hmadeu⟩ := hleft s hs hm
  obtain ⟨s', hahead, hmade, hjoined, -⟩ := h.step haheadu hmadeu hright left
  obtain ⟨a, v, ha, hsteps⟩ := (hu.next (hjoined e htyped)).iterates_iff
  have hstop : Reads (nextOperand (reader inner (k + 1)) (operators k) e) scope s' none s' :=
    reads_nextOperand.mpr (Or.inr ⟨hstops.operator k (Nat.le_refl k) _ hahead.shows, rfl, rfl⟩)
  exact ⟨s', (reads_reader hinner h.level).mpr ⟨a, v, ha, (hsteps e s').mpr (.stop hstop)⟩, hahead, hmade⟩

/-- Two operands with an operator between them are read only if its rule allows them. -/
theorem Joins.rule_of_reads (h : Joins k l rule) (hinner : inner.Derived)
    (hleft : TakesChain inner k scope m ls₁ left m₁ (l :: (ls₂ ++ rest)))
    (hright : Takes (reader inner (k + 1)) scope m₁ ls₂ right m₂ rest) (hs : s.Ahead (ls₁ ++ l :: (ls₂ ++ rest)))
    (hm : s.made = m) (hread : Reads (reader inner k) scope s e s') :
    ∃ joined, rule scope.catalog l.text left right = .ok joined := by
  obtain ⟨u, hu, haheadu, hmadeu⟩ := hleft s hs hm
  obtain ⟨-, -, -, -, hfails⟩ := h.step haheadu hmadeu hright left
  obtain ⟨a, v, ha, hsteps⟩ := hu.iterates_iff
  obtain ⟨a', v', ha', hlater⟩ := (reads_reader hinner h.level).mp hread
  obtain ⟨rfl, rfl⟩ := ha.unique ha'
  obtain ⟨next, w, hnext⟩ : ∃ next w, Reads (nextOperand (reader inner (k + 1)) (operators k) left) scope u next w := by
    cases (hsteps e s').mp hlater with
    | stop hnext => exact ⟨_, _, hnext⟩
    | next hnext _ => exact ⟨_, _, hnext⟩
  cases hrule : rule scope.catalog l.text left right with
  | ok joined => exact ⟨joined, rfl⟩
  | error fault =>
      have hfault := hfails fault hrule
      rw [Fails, hnext] at hfault
      cases hfault

theorem Joins.fails (h : Joins k l rule) (hleft : Takes (reader inner (k + 1)) scope m ls₁ left m₁ (l :: (ls₂ ++ rest)))
    (hright : Takes (reader inner (k + 1)) scope m₁ ls₂ right m₂ rest) {fault : Fault}
    (htyped : rule scope.catalog l.text left right = .error fault) (hs : s.Ahead (ls₁ ++ l :: (ls₂ ++ rest)))
    (hm : s.made = m) : ∃ pos, Fails (reader inner k) scope s ⟨fault, pos⟩ := by
  obtain ⟨u, hu, haheadu, hmadeu⟩ := hleft s hs hm
  obtain ⟨-, -, -, -, hfails⟩ := h.step haheadu hmadeu hright left
  rw [reader_eq_chain h.level]
  exact ⟨_, hu.fails (hfails fault htyped).repeatStep⟩

/-- What a reader reads as a phrase of a level starts with a phrase of every tighter level. -/
theorem exists_reads_reader (hinner : inner.Derived) {j k : Nat} (hjk : j ≤ k)
    (h : Reads (reader inner j) scope s e s') : ∃ a u, Reads (reader inner k) scope s a u := by
  obtain ⟨d, rfl⟩ := Nat.exists_eq_add_of_le hjk
  induction d with
  | zero => exact ⟨e, s', h⟩
  | succ d ih =>
      obtain ⟨a, u, ha⟩ := ih (by omega)
      rcases Nat.lt_or_ge (j + d) 6 with hlt | hge
      · rcases Nat.eq_zero_or_pos (j + d) with hzero | hpos
        · rw [hzero] at ha
          obtain ⟨_, _, htoken, ha⟩ := reads_bind.mp ha
          obtain ⟨-, rfl⟩ := reads_token.mp htoken
          obtain ⟨test, u, htest, -⟩ := reads_bind.mp ha
          exact ⟨test, u, by rwa [← Nat.add_assoc, hzero]⟩
        · obtain ⟨b, v, hb, -⟩ := (reads_reader hinner (by omega)).mp ha
          exact ⟨b, v, hb⟩
      · rw [reader_eq_unary hge] at ha
        exact ⟨a, u, by rwa [reader_eq_unary (by omega)]⟩

end

/-- A whole text that is a phrase of a level. -/
def wholePhrase (k : Nat) : Parse Expr := do
  let e ← reader (level (maxDepth - 1)) k
  require .done .syntaxError
  return e

end Grammar

/-! ### Phrases that compile -/

namespace Environment

def compilePhrase (k : Nat) (env : Environment) (params : List ParamDecl) (text : String) (args : List Argument) :
    Shaping CompileError Lambda := do
  let bound := bindParams params
  let (body, slots) ← env.reading bound args text (wholePhrase k)
  return ⟨bound, body, slots⟩

/-- A text compiles to a phrase of a level. -/
def CompilesPhrase (k : Nat) (env : Environment) (params : List ParamDecl) (text : String) (args : List Argument)
    (l : Lambda) : Prop :=
  ∃ shapes, ((env.compilePhrase k params text args).exec shapes).1 = .ok l

variable {env : Environment} {decls : List ParamDecl} {result : Option Ty} {text a b : String}
  {args : List Argument} {l l₁ l₂ : Lambda} {k : Nat}

namespace CompilesPhrase

theorem readsText (h : env.CompilesPhrase k decls text args l) :
    l.params = bindParams decls ∧ ∃ shapes, env.ReadsText (bindParams decls) args text
      (Reads (reader (level (maxDepth - 1)) k)) shapes l.body l.slots := by
  obtain ⟨shapes, h⟩ := h
  obtain ⟨made, h⟩ := Shaping.exec_fst_eq_ok.mp h
  obtain ⟨⟨e, slots⟩, hread, rfl⟩ := Shaping.exec_map_eq_ok.mp h
  obtain ⟨symbols, after, hsymbols, hreads, rfl, -⟩ := reading_eq_ok.mp hread
  obtain ⟨_, s, hadvance, hwhole⟩ := reads_bind.mp hreads
  obtain ⟨body, m, hbody, hend⟩ := reads_bind.mp hwhole
  obtain ⟨_, _, hrequire, hpure⟩ := reads_bind.mp hend
  obtain ⟨hdone, rfl⟩ := reads_require.mp hrequire
  obtain ⟨rfl, rfl⟩ := reads_pure.mp hpure
  exact ⟨rfl, shapes, symbols, hsymbols, s, m, hadvance, hbody, hdone, rfl⟩

theorem exists_used (h : env.CompilesPhrase k decls text args l) : ∃ used, l.slots = decls.length + used := by
  obtain ⟨-, shapes, htext⟩ := h.readsText
  have hle := htext.le_slots fun h => (reader_derived (level_derived _) k h).1.le
  rw [length_bindParams] at hle
  exact Nat.exists_eq_add_of_le hle

/-- A phrase is taken from the front of any text that goes on after it with what does not continue it. -/
theorem takes (h : env.CompilesPhrase k decls text args l) :
    ∃ (symbols : Symbols) (ls : List Lexeme) (grow : Shapes → Shapes),
      Symbols.ofText (bindParams decls) args = .ok symbols ∧ Scans text.toList ls ∧
      ∀ (shift : Nat) (made : Shapes) (rest : List Lexeme), Closes rest → Stops k rest →
        Takes (reader (level (maxDepth - 1)) k) (env.scope (bindParams decls) symbols)
          (decls.length + shift, made) ls (l.body.mapSlots (raise decls.length shift))
          (l.slots + shift, grow made) rest := by
  obtain ⟨-, shapes, htext⟩ := h.readsText
  have htakes := htext.takes (Nat.le_refl _) (bindParams_slots decls)
  rwa [length_bindParams] at htakes

/-- A chain of operands is gathered from the front of any text that goes on after it with an operator of its level. -/
theorem takesChain (hk : 1 ≤ k ∧ k ≤ 5) (h : env.CompilesPhrase k decls text args l) :
    ∃ (symbols : Symbols) (ls : List Lexeme) (grow : Shapes → Shapes),
      Symbols.ofText (bindParams decls) args = .ok symbols ∧ Scans text.toList ls ∧
      ∀ (made : Shapes) (rest : List Lexeme), Closes rest → Stops (k + 1) rest →
        TakesChain (level (maxDepth - 1)) k (env.scope (bindParams decls) symbols) (decls.length, made) ls l.body
          (l.slots, grow made) rest := by
  obtain ⟨-, shapes, symbols, hsymbols, s, s', hadvance, hread, hdone, hslots⟩ := h.readsText
  have htext : env.ReadsText (bindParams decls) args text (Gathered (level (maxDepth - 1)) k) shapes l.body l.slots :=
    ⟨symbols, hsymbols, s, s', hadvance, .of_reads (level_derived _) hk hread, hdone, hslots⟩
  obtain ⟨symbols, ls, grow, hsymbols, hscans, hembeds⟩ := htext.embeds Expr.mapSlots_id (bindParams_slots decls)
    (gathered_portable (Nat.le_refl _)) (gathered_portable (Nat.le_refl _)) (.nil (k + 1))
  refine ⟨symbols, ls, grow, hsymbols, hscans, fun made rest hrest hstops t ht hmade => ?_⟩
  obtain ⟨hlength, rfl⟩ := Prod.mk.inj hmade
  rw [← length_bindParams decls] at hlength
  obtain ⟨t', hread, hahead, hslots', hshapes⟩ := hembeds ht (Nat.le_of_eq hlength.symm) hrest hstops
  rw [hlength, Nat.sub_self] at hread hslots'
  rw [raise_zero, Expr.mapSlots_id] at hread
  exact ⟨t', hread, hahead, Prod.ext hslots' hshapes⟩

/-- A text whose lexemes are taken up to the end as a phrase compiles to it. -/
theorem of_takes {symbols : Symbols} {ls : List Lexeme} {e : Expr} {slots : Nat} {shapes : Shapes}
    (hsymbols : Symbols.ofText (bindParams decls) args = .ok symbols) (hscans : Scans text.toList ls)
    (h : Takes (reader (level (maxDepth - 1)) k) (env.scope (bindParams decls) symbols) (decls.length, .empty) ls e
      (slots, shapes) []) : env.CompilesPhrase k decls text args ⟨bindParams decls, e, slots⟩ := by
  have hwhole : Takes (wholePhrase k) _ _ _ _ _ [] := h.last ((takes_pure e).required rfl)
  rw [← length_bindParams decls] at hwhole
  obtain ⟨htokens, hstop⟩ := hscans 0
  have hreading := reading_of_takes hsymbols htokens hstop hwhole
  exact ⟨.empty, congrArg Prod.fst (Shaping.exec_map_eq_ok.mpr ⟨_, hreading, rfl⟩)⟩

/-- By itself a phrase is taken as one of every looser level. -/
theorem takes_alone (h : env.CompilesPhrase k decls text args l) {j : Nat} (hj : j ≤ k) :
    ∃ (symbols : Symbols) (ls : List Lexeme) (shapes : Shapes),
      Symbols.ofText (bindParams decls) args = .ok symbols ∧ Scans text.toList ls ∧
      Takes (reader (level (maxDepth - 1)) j) (env.scope (bindParams decls) symbols) (decls.length, .empty) ls l.body
        (l.slots, shapes) [] := by
  obtain ⟨symbols, ls, grow, hsymbols, hscans, htakes⟩ := h.takes
  have hphrase := takes_descend (level_derived _) (htakes 0 .empty [] (.of_first (by decide)) (.nil k)) hj (.nil j)
  rw [raise_zero, Expr.mapSlots_id] at hphrase
  exact ⟨symbols, ls, grow .empty, hsymbols, hscans, hphrase⟩

theorem descend (h : env.CompilesPhrase k decls text args l) {j : Nat} (hj : j ≤ k) :
    env.CompilesPhrase j decls text args l := by
  obtain ⟨symbols, ls, shapes, hsymbols, hscans, htakes⟩ := h.takes_alone hj
  have hphrase : env.CompilesPhrase j decls text args ⟨bindParams decls, l.body, l.slots⟩ :=
    of_takes hsymbols hscans htakes
  rwa [← h.readsText.1] at hphrase

theorem compiles (h : env.CompilesPhrase k decls text args l) : env.Compiles decls none text args l := by
  obtain ⟨symbols, ls, shapes, hsymbols, hscans, htakes⟩ := h.takes_alone (Nat.zero_le k)
  have hcompiles : env.Compiles decls none text args ⟨bindParams decls, l.body, l.slots⟩ :=
    compiles_of_takes hsymbols hscans htakes (by simp)
  rwa [← h.readsText.1] at hcompiles

end CompilesPhrase

/-! ### Two operands and an operator -/

section

variable {sign : Lexeme} {rule : Catalog → String → Expr → Expr → Except Fault Expr} (hjoins : Joins k sign rule)
  (h₁ : env.CompilesPhrase k decls a args l₁) (h₂ : env.CompilesPhrase (k + 1) decls b args l₂)

include hjoins h₁ h₂

theorem CompilesPhrase.joined :
    ∃ (symbols : Symbols) (ls₁ ls₂ : List Lexeme) (grow₁ grow₂ : Shapes → Shapes) (shift : Nat),
      Symbols.ofText (bindParams decls) args = .ok symbols ∧
      Scans (a ++ " " ++ sign.text ++ " " ++ b).toList (ls₁ ++ sign :: ls₂) ∧
      ∀ made : Shapes,
        TakesChain (level (maxDepth - 1)) k (env.scope (bindParams decls) symbols) (decls.length, made) ls₁ l₁.body
          (decls.length + shift, grow₁ made) (sign :: (ls₂ ++ [])) ∧
        Takes (reader (level (maxDepth - 1)) (k + 1)) (env.scope (bindParams decls) symbols)
          (decls.length + shift, grow₁ made) ls₂ (l₂.body.mapSlots (raise decls.length shift))
          (l₂.slots + shift, grow₂ made) [] := by
  obtain ⟨shift, hshift⟩ := h₁.exists_used
  obtain ⟨symbols, ls₁, grow₁, hsymbols, hscans₁, hchain⟩ := h₁.takesChain hjoins.level
  obtain ⟨symbols', ls₂, grow₂, hsymbols', hscans₂, htakes⟩ := h₂.takes
  obtain rfl : symbols = symbols' := Except.ok.inj (hsymbols.symm.trans hsymbols')
  refine ⟨symbols, ls₁, ls₂, grow₁, fun made => grow₂ (grow₁ made), shift, hsymbols,
    hscans₁.joined hjoins.whole hscans₂, fun made => ⟨?_, ?_⟩⟩
  · rw [← hshift]
    exact hchain made _ (hjoins.closes _) (hjoins.stops _)
  · exact htakes shift (grow₁ made) [] (.of_first (by decide)) (.nil _)

/-- A text of two operands with an operator between them compiles to what the rule of the operator makes of them. -/
theorem Compiles.join_eq_ok (h : env.Compiles decls result (a ++ " " ++ sign.text ++ " " ++ b) args l) :
    ∃ shift e, rule env.catalog sign.text l₁.body (l₂.body.mapSlots (raise decls.length shift)) = .ok e ∧
      Typing.result env.catalog e result = .ok l.body := by
  obtain ⟨symbols, ls₁, ls₂, grow₁, grow₂, shift, hsymbols, hscans, htakes⟩ := CompilesPhrase.joined hjoins h₁ h₂
  obtain ⟨shapes, h⟩ := h.within
  obtain ⟨hparams, e, ⟨symbols', hsymbols', s, s', hadvance, hread, -, -⟩, hresult⟩ := compileWithin_eq_ok.mp h
  rw [hparams] at hsymbols' hadvance hread
  obtain rfl : symbols = symbols' := Except.ok.inj (hsymbols.symm.trans hsymbols')
  obtain ⟨t, ht, hahead, hmade⟩ := hscans.begins (env.scope (bindParams decls) symbols) (bindParams decls) shapes
  obtain ⟨-, rfl⟩ := hadvance.unique ht
  rw [length_bindParams] at hmade
  obtain ⟨hleft, hright⟩ := htakes shapes
  have hread : Reads (reader (level (maxDepth - 1)) 0) (env.scope (bindParams decls) symbols) s e s' := hread
  obtain ⟨x, u, hx⟩ := exists_reads_reader (level_derived _) (Nat.zero_le k) hread
  have hahead' : s.Ahead (ls₁ ++ sign :: (ls₂ ++ [])) := by rwa [List.append_nil]
  obtain ⟨joined, hjoined⟩ := hjoins.rule_of_reads (level_derived _) hleft hright hahead' hmade hx
  have hexpression := takes_descend (level_derived _) (hjoins.takes (level_derived _) hleft hright hjoined (.nil k))
    (Nat.zero_le k) (.nil 0)
  obtain ⟨v, hv, -⟩ := hexpression s (by rwa [List.append_nil]) hmade
  obtain ⟨rfl, -⟩ := hread.unique hv
  exact ⟨shift, e, hjoined, hresult⟩

/-- A text of two operands with an operator between them compiles if the rule of the operator allows them. -/
theorem CompilesPhrase.exists_join
    (htyped : ∀ shift, ∃ e, rule env.catalog sign.text l₁.body (l₂.body.mapSlots (raise decls.length shift)) = .ok e ∧
      ∀ t ∈ result, e.ty = t) :
    ∃ l, env.Compiles decls result (a ++ " " ++ sign.text ++ " " ++ b) args l := by
  obtain ⟨symbols, ls₁, ls₂, grow₁, grow₂, shift, hsymbols, hscans, htakes⟩ := CompilesPhrase.joined hjoins h₁ h₂
  obtain ⟨hleft, hright⟩ := htakes .empty
  obtain ⟨e, hrule, hty⟩ := htyped shift
  have hexpression := takes_descend (level_derived _) (hjoins.takes (level_derived _) hleft hright hrule (.nil k))
    (Nat.zero_le k) (.nil 0)
  exact ⟨_, compiles_of_takes hsymbols hscans hexpression hty⟩

end

/-- A text of two operands with an operator between them is refused if the rule of the operator finds a fault. -/
theorem CompilesPhrase.join_fails {sign : Lexeme} {rule : Catalog → String → Expr → Expr → Except Fault Expr}
    (hjoins : Joins k sign rule) (h₁ : env.CompilesPhrase (k + 1) decls a args l₁)
    (h₂ : env.CompilesPhrase (k + 1) decls b args l₂) {fault : Fault}
    (htyped : ∀ shift, rule env.catalog sign.text l₁.body (l₂.body.mapSlots (raise decls.length shift)) = .error fault)
    (result : Option Ty) (shapes : Shapes) :
    ∃ pos, ((env.compile decls result (a ++ " " ++ sign.text ++ " " ++ b) args).exec shapes).1 =
      .error ⟨fault, pos⟩ := by
  obtain ⟨used, hused⟩ := h₁.exists_used
  obtain ⟨symbols, ls₁, grow₁, hsymbols, hscans₁, htakes₁⟩ := h₁.takes
  obtain ⟨symbols', ls₂, grow₂, hsymbols', hscans₂, htakes₂⟩ := h₂.takes
  obtain rfl : symbols = symbols' := Except.ok.inj (hsymbols.symm.trans hsymbols')
  obtain ⟨s, hadvance, hahead, hmade⟩ := (hscans₁.joined hjoins.whole hscans₂).begins
    (env.scope (bindParams decls) symbols) (bindParams decls) shapes
  rw [length_bindParams] at hmade
  have hleft := htakes₁ 0 shapes (sign :: (ls₂ ++ [])) (hjoins.closes _) (hjoins.stops _)
  have hright := htakes₂ used (grow₁ shapes) [] (.of_first (by decide)) (.nil _)
  rw [raise_zero, Expr.mapSlots_id, hused, Nat.add_zero] at hleft
  rw [← List.append_nil ls₂] at hahead
  obtain ⟨pos, hfails⟩ := hjoins.fails hleft hright (htyped used) hahead hmade
  exact ⟨pos, compile_of_fails result hsymbols hadvance (fails_descend hfails (Nat.zero_le k))⟩

/-- Two operands are evaluated one after the other as each of them is by itself. -/
theorem Compiles.exec_both {row : List Value} {v w : Value} (h₁ : env.Compiles decls none a args l₁)
    (h₂ : env.Compiles decls none b args l₂) (hv : env.catalog.evalLambda l₁ row = .ok v)
    (hw : env.catalog.evalLambda l₂ row = .ok w) (slots shift : Nat) :
    row.length = (bindParams decls).length ∧ ∃ between after,
      Eval.exec (env.catalog.eval l₁.body) (Slots.ofArguments slots (bindParams decls) row) = (.ok v, between) ∧
      Eval.exec (env.catalog.eval (l₂.body.mapSlots (raise decls.length shift))) between = (.ok w, after) := by
  have hparams₁ := h₁.derives.1
  have hparams₂ := h₂.derives.1
  have hrow : row.length = (bindParams decls).length := by
    by_contra hne
    rw [Catalog.evalLambda, hparams₁, if_neg hne] at hv
    cases hv
  have hstart : (Slots.ofArguments slots (bindParams decls) row).StartWith row :=
    fun i hi => Slots.getElem?_ofArguments (bindParams_slots decls) hrow slots hi
  have hrun₁ := h₁.disciplined.exec_renamed env.catalog Function.injective_id (fun _ _ => rfl)
    (by rw [hparams₁, hrow]) hstart
  rw [Expr.mapSlots_id, hv] at hrun₁
  have hfix : ∀ n, n < l₂.params.length → raise decls.length shift n = n := by
    intro n hn
    rw [hparams₂, length_bindParams] at hn
    exact raise_of_lt hn
  have hrun₂ := h₂.disciplined.exec_renamed env.catalog (raise_injective _ shift) hfix
    (by rw [hparams₂, hrow]) hrun₁.2
  rw [hw] at hrun₂
  exact ⟨hrow, _, _, Prod.ext hrun₁.1 rfl, Prod.ext hrun₂.1 rfl⟩

end Environment

end RowQuery
