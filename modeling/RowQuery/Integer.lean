import RowQuery.Digits
import RowQuery.Power

/-!
The eight integral types. A word of a kind is an integer in that kind's range; sums, differences and
products that leave the range come back modulo the number of words, which is what `Word.wrap` does.
-/

namespace RowQuery

/-- The integral types, named for their width and whether they carry a sign. -/
inductive IntKind where
  | sbyte | byte | int16 | uint16 | int32 | uint32 | int64 | uint64
deriving DecidableEq, Repr

namespace IntKind

/-- The number of bits of a word. -/
def bits : IntKind → Nat
  | sbyte | byte => 8
  | int16 | uint16 => 16
  | int32 | uint32 => 32
  | int64 | uint64 => 64

/-- Whether words of this kind may be negative. -/
def signed : IntKind → Bool
  | sbyte | int16 | int32 | int64 => true
  | byte | uint16 | uint32 | uint64 => false

/-- The number of words of this kind. -/
def modulus (k : IntKind) : Int := 2 ^ k.bits

/-- The least word of this kind. -/
def least (k : IntKind) : Int := if k.signed then -(2 ^ (k.bits - 1)) else 0

/-- The greatest word of this kind. -/
def greatest (k : IntKind) : Int := k.least + k.modulus - 1

/-- The name of the type. -/
def name : IntKind → String
  | sbyte => "SByte"
  | byte => "Byte"
  | int16 => "Int16"
  | uint16 => "UInt16"
  | int32 => "Int32"
  | uint32 => "UInt32"
  | int64 => "Int64"
  | uint64 => "UInt64"

/-- The integers that are words of this kind. -/
def Holds (k : IntKind) (n : Int) : Prop := k.least ≤ n ∧ n ≤ k.greatest

instance (k : IntKind) (n : Int) : Decidable (k.Holds n) := inferInstanceAs (Decidable (_ ∧ _))

theorem modulus_pos (k : IntKind) : 0 < k.modulus := by cases k <;> decide

end IntKind

/-- An integer in the range of its kind. -/
structure Word (k : IntKind) where
  val : Int
  holds : k.Holds val
deriving DecidableEq

namespace Word

/-- The word denoting `n`, when the kind holds `n`. -/
def ofInt? (k : IntKind) (n : Int) : Option (Word k) :=
  if h : k.Holds n then some ⟨n, h⟩ else none

/-- The word congruent to `n` modulo the number of words. -/
def wrap (k : IntKind) (n : Int) : Word k where
  val := k.least + (n - k.least) % k.modulus
  holds := by
    have pos := k.modulus_pos
    have low := Int.emod_nonneg (n - k.least) (Int.ne_of_gt pos)
    have high := Int.emod_lt_of_pos (n - k.least) pos
    exact ⟨by omega, by unfold IntKind.greatest; omega⟩

/-- The word nearest to `n`. -/
def clamp (k : IntKind) (n : Int) : Word k :=
  if k.greatest < n then wrap k k.greatest else if n < k.least then wrap k k.least else wrap k n

/-- Reads a word: digits after a plus sign or, for the signed kinds, a minus sign. -/
def read? (k : IntKind) (s : String) : Option (Word k) :=
  if !k.signed && s.toList.head? == some '-' then none
  else (Digits.int? s.toList).bind (ofInt? k)

instance (k : IntKind) : Inhabited (Word k) := ⟨wrap k 0⟩

end Word

end RowQuery
