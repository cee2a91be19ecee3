/-!
Sets of characters given by intervals of code points. A table of this form holds a character
property of the Unicode standard, and membership is a search through its intervals.
-/

namespace RowQuery.Text

/-- Intervals of code points, each by its first one and its size, in ascending order. -/
abbrev Ranges := List (Nat × Nat)

/-- A character belongs to a table when its code point lies in one of the intervals. -/
def Ranges.contains (r : Ranges) (c : Char) : Bool :=
  r.any fun (first, size) => first ≤ c.toNat && c.toNat < first + size

end RowQuery.Text
