import RowQuery.Grammar

/-!
Names in any case. Every table of names is looked up without regard to the case of ASCII letters, so a typing
rule gives the same expression for a name however it is spelled; only the faults that mention it differ. In the
same way the symbol of an operator is only mentioned in faults.
-/

namespace RowQuery

/-! ### Names in any case -/

namespace Text

/-- A property of characters that does not depend on the case of ASCII letters. -/
def Caseless (p : Char → Bool) : Prop := ∀ c : Char, p c.toLower = p c

theorem Caseless.congr {p : Char → Bool} (h : Caseless p) {c d : Char} (hcd : c.toLower = d.toLower) : p c = p d := by
  rw [← h c, hcd, h d]

/-- Only capital letters are changed. -/
theorem mem_capitals {c : Char} (h : c.toLower ≠ c) : c.toNat ∈ List.range' 65 26 := by
  have hc : c.val ≥ 'A'.val ∧ c.val ≤ 'Z'.val := Decidable.byContradiction fun hc => h (dif_neg hc)
  have hlo : 65 ≤ c.toNat := UInt32.le_iff_toNat_le.mp hc.1
  have hhi : c.toNat ≤ 90 := UInt32.le_iff_toNat_le.mp hc.2
  exact List.mem_range'_1.mpr ⟨hlo, by omega⟩

/-- It is enough to look at the 26 capital letters. -/
theorem caseless_of_capitals {p : Char → Bool}
    (h : (List.range' 65 26).all fun n => p (Char.ofNat n).toLower == p (Char.ofNat n)) : Caseless p := by
  intro c
  by_cases hc : c.toLower = c
  · rw [hc]
  · have hp := beq_iff_eq.mp (List.all_eq_true.mp h _ (mem_capitals hc))
    rwa [Char.ofNat_toNat] at hp

variable {name name' : String}

theorem fold_eq_iff : fold name = fold name' ↔ name.toList.map Char.toLower = name'.toList.map Char.toLower :=
  String.ofList_inj

theorem sameName_right (h : fold name = fold name') (other : String) : sameName other name = sameName other name' := by
  rw [sameName, sameName, fold_eq_iff.mp h]

theorem sameName_left (h : fold name = fold name') (other : String) : sameName name other = sameName name' other := by
  rw [sameName, sameName, fold_eq_iff.mp h]

end Text

section

variable {name name' : String} (h : Text.fold name = Text.fold name')

include h

theorem Members.property?_respelled (m : Members) (isStatic : Bool) :
    m.property? name isStatic = m.property? name' isStatic := by
  simp only [property?, Text.sameName_right h]

theorem Members.methodsNamed_respelled (m : Members) (isStatic : Bool) :
    m.methodsNamed name isStatic = m.methodsNamed name' isStatic := by
  simp only [methodsNamed, Text.sameName_right h]

/-- Properties are found in a class and its bases however the name is spelled. -/
theorem Catalog.property?_respelled (cat : Catalog) (ty : Ty) (isStatic : Bool) :
    cat.property? ty name isStatic = cat.property? ty name' isStatic := by
  simp only [property?, Members.property?_respelled h]

theorem Catalog.declaresMethod_respelled (cat : Catalog) (ty : Ty) :
    cat.declaresMethod ty name = cat.declaresMethod ty name' := by
  simp only [declaresMethod, Text.sameName_right h]

theorem Typing.Receiver.aggregated?_respelled (cat : Catalog) (receiver : Receiver) :
    receiver.aggregated? cat name = receiver.aggregated? cat name' := by
  cases receiver with
  | type t => rfl
  | value e => rw [aggregated?, aggregated?, cat.declaresMethod_respelled h]

theorem Signatures.aggregatesNamed_respelled : aggregatesNamed name = aggregatesNamed name' := by
  simp only [aggregatesNamed, Text.sameName_right h]

theorem Ty.predefined?_respelled : predefined? name = predefined? name' := by
  simp only [predefined?, h]

theorem Context.lookup?_respelled (ctx : Context) : ctx.lookup? name = ctx.lookup? name' := by
  rw [lookup?, lookup?, h]

end

/-! ### Outcomes of typing rules -/

/-- Two outcomes: values that are related, or faults of one name. -/
inductive Accords {ε α : Type} (name : ε → String) (R : α → α → Prop) : Except ε α → Except ε α → Prop
  | ok {a b : α} (h : R a b) : Accords name R (.ok a) (.ok b)
  | error {e f : ε} (h : name e = name f) : Accords name R (.error e) (.error f)

namespace Accords

variable {ε α β : Type} {name : ε → String}

theorem refl (r : Except ε α) : Accords name Eq r r := by
  cases r with
  | ok a => exact .ok rfl
  | error e => exact .error rfl

theorem mono {R S : α → α → Prop} {r r' : Except ε α} (h : Accords name R r r') (hRS : ∀ a b, R a b → S a b) :
    Accords name S r r' := by
  cases h with
  | ok h => exact .ok (hRS _ _ h)
  | error h => exact .error h

/-- With values related by a function, success on one side is success on the other. -/
theorem eq_ok_iff {φ : α → α} {r r' : Except ε α} (h : Accords name (fun a b => b = φ a) r r') {b : α} :
    r' = .ok b ↔ ∃ a, r = .ok a ∧ b = φ a := by
  cases h with
  | ok h =>
      subst h
      simp [eq_comm]
  | error h => simp

theorem bind {r r' : Except ε α} {f f' : α → Except ε β} (h : Accords name Eq r r')
    (hf : ∀ a, Accords name Eq (f a) (f' a)) : Accords name Eq (r >>= f) (r' >>= f') := by
  cases h with
  | ok h =>
      subst h
      exact hf _
  | error h => exact .error h

end Accords

namespace Typing

/-- The symbol of an operator is only named in faults. -/
def Symbolic {α : Type} (rule : Catalog → String → Expr → Expr → Except Fault α) : Prop :=
  ∀ cat symbol symbol' left right,
    Accords Fault.name Eq (rule cat symbol left right) (rule cat symbol' left right)

/-- The overload is chosen without the symbol, which is mentioned if there is none. -/
theorem operands_symbolic (signatures : List (List Ty)) : Symbolic (operands · signatures) := by
  intro cat symbol symbol' left right
  simp only [operands]
  split
  · exact .ok rfl
  · exact .error rfl

theorem logical_symbolic (op : BinaryOp) : Symbolic (logical · op) := by
  intro cat symbol symbol' left right
  exact (operands_symbolic _ cat symbol symbol' left right).bind fun _ => .refl _

theorem arithmetic_symbolic (signatures : List (List Ty)) (op : BinaryOp) :
    Symbolic (arithmetic · signatures op) := by
  intro cat symbol symbol' left right
  exact (operands_symbolic _ cat symbol symbol' left right).bind fun _ => .refl _

theorem sum_symbolic : Symbolic sum := by
  intro cat symbol symbol' left right
  simp only [sum]
  split
  · exact .refl _
  · exact arithmetic_symbolic _ _ cat symbol symbol' left right

theorem referencePair_symbolic : Symbolic referencePair := by
  intro cat symbol symbol' left right
  simp only [referencePair]
  split
  · exact .refl _
  · split
    · exact .refl _
    · split
      · exact .refl _
      · exact .error rfl

theorem enumPair_symbolic : Symbolic enumPair := by
  intro cat symbol symbol' left right
  simp only [enumPair]
  split
  · exact .refl _
  · split
    · exact .refl _
    · exact .refl _
    · exact .error rfl

theorem comparable_symbolic (op : BinaryOp) : Symbolic (comparable · op) := by
  intro cat symbol symbol' left right
  simp only [comparable]
  split
  · exact referencePair_symbolic cat symbol symbol' left right
  · split
    · exact enumPair_symbolic cat symbol symbol' left right
    · exact (Accords.refl _).bind fun pair => operands_symbolic _ cat symbol symbol' pair.1 pair.2

theorem comparison_symbolic (op : BinaryOp) : Symbolic (comparison · op) := by
  intro cat symbol symbol' left right
  exact (comparable_symbolic op cat symbol symbol' left right).bind fun _ => .refl _

theorem unary_symbolic (cat : Catalog) (op : UnaryOp) (symbol symbol' : String) (operand : Expr) :
    Accords Fault.name Eq (unary cat op symbol operand) (unary cat op symbol' operand) := by
  simp only [unary]
  split
  · exact .ok rfl
  · exact .error rfl

section

variable {name name' : String} (h : Text.fold name = Text.fold name') (cat : Catalog)

include h

theorem property_respelled (receiver : Receiver) :
    Accords Fault.name Eq (property cat receiver name) (property cat receiver name') := by
  rw [property, property, cat.property?_respelled h]
  split
  · exact .ok rfl
  · exact .error rfl

/-- The name in a call decides only by its folded form, and is mentioned as it is spelled. -/
theorem methodCall_respelled (receiver : Receiver) (args : List Expr) :
    Accords Fault.name Eq (methodCall cat receiver name args) (methodCall cat receiver name' args) := by
  simp only [methodCall, Members.methodsNamed_respelled h]
  split
  · exact .ok rfl
  · exact .error rfl
  · exact .error rfl

theorem aggregate_respelled (source : Expr) (slot : Nat) (args : List Expr) :
    Accords Fault.name Eq (aggregate cat source slot name args) (aggregate cat source slot name' args) := by
  rw [aggregate, aggregate, Signatures.aggregatesNamed_respelled h]
  split
  · exact .ok rfl
  · exact .error rfl

end

end Typing

end RowQuery
