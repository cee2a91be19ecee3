/-!
Occurrences of one text in another, counted in characters.
-/

namespace RowQuery.Text

/-- Whether a text starts with another. -/
def startsWith (text start : List Char) : Bool := start.isPrefixOf text

/-- Whether a text ends with another. -/
def endsWith (text tail : List Char) : Bool := tail.isSuffixOf text

/-- The place of the first occurrence of a text in another. -/
def find? (part : List Char) : List Char → Option Nat
  | [] => if part.isEmpty then some 0 else none
  | c :: cs => if part.isPrefixOf (c :: cs) then some 0 else (find? part cs).map (· + 1)

/-- Replaces the occurrences of a text from the left, after so many characters that belong to one
already replaced. -/
def replaceAfter (old new : List Char) : Nat → List Char → List Char
  | _, [] => []
  | skip + 1, _ :: cs => replaceAfter old new skip cs
  | 0, c :: cs =>
    if old.isPrefixOf (c :: cs) then new ++ replaceAfter old new (old.length - 1) cs
    else c :: replaceAfter old new 0 cs

/-- Replaces the occurrences of a text that is not empty. -/
def replace (old new text : List Char) : List Char := replaceAfter old new 0 text

end RowQuery.Text
