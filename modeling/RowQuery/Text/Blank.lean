import RowQuery.Text.Ranges

/-!
Blank space: the Unicode property `White_Space`, and the removal of it from the ends of a text.
-/

namespace RowQuery.Text

/-- The intervals of `White_Space`. -/
def blankTable : Ranges :=
  [(0x9, 5), (0x20, 1), (0x85, 1), (0xA0, 1), (0x1680, 1), (0x2000, 11), (0x2028, 2), (0x202F, 1),
   (0x205F, 1), (0x3000, 1)]

/-- The Unicode property `White_Space`. -/
def isBlank (c : Char) : Bool := blankTable.contains c

/-- The characters of a text without the blank ones at either end. -/
def trimChars (cs : List Char) : List Char :=
  ((cs.dropWhile isBlank).reverse.dropWhile isBlank).reverse

/-- A text without the blank characters at either end. -/
def trim (s : String) : String := String.ofList (trimChars s.toList)

/-- A text of blank characters only, or of none. -/
def isBlankText (s : String) : Bool := s.toList.all isBlank

end RowQuery.Text
