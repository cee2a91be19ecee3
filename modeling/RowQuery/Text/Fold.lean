/-!
Names are compared without regard to the case of ASCII letters; every other character must agree
exactly.
-/

namespace RowQuery.Text

/-- A text with its ASCII capitals replaced by small letters. -/
def fold (s : String) : String := String.ofList (s.toList.map Char.toLower)

/-- Two texts that agree up to the case of ASCII letters. -/
def sameName (s t : String) : Bool := s.toList.map Char.toLower == t.toList.map Char.toLower

end RowQuery.Text
