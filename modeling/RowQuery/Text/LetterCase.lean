import RowQuery.Text.LetterCase.Table

/-!
Upper and lower forms of a text. One character may become several, and a capital sigma becomes the
final form of the small one exactly when it ends a word.
-/

namespace RowQuery.Text

/-- The single character a list of runs maps a code point to, if one of them holds it. -/
def CaseRun.map? (runs : List CaseRun) (n : Nat) : Option Char :=
  runs.findSome? fun (first, size, step, image) =>
    if first ≤ n && n < first + size * step && (n - first) % step == 0 then
      some (Char.ofNat (image + (n - first)))
    else none

/-- The upper form of one character. -/
def upperChar (c : Char) : List Char :=
  if c.toNat < 128 then [c.toUpper]
  else match upperExpansions.lookup c.toNat with
    | some codes => codes.map Char.ofNat
    | none => [(CaseRun.map? upperRuns c.toNat).getD c]

/-- The lower form of one character outside any word; only the capital I with a dot becomes two. -/
def lowerChar (c : Char) : List Char :=
  if c.toNat < 128 then [c.toLower]
  else if c.toNat == 0x130 then ['i', Char.ofNat 0x307]
  else [(CaseRun.map? lowerRuns c.toNat).getD c]

def isCased (c : Char) : Bool := casedTable.contains c

def isCaseIgnorable (c : Char) : Bool := ignorableLow.contains c || ignorableHigh.contains c

/-- The first character that is not ignorable exists and has case. -/
def leadsToCased (cs : List Char) : Bool :=
  match cs.dropWhile isCaseIgnorable with
  | c :: _ => isCased c
  | [] => false

/-- The lower form of the rest of a text, given the characters before it, nearest first. -/
def lowerFrom (before : List Char) : List Char → List Char
  | [] => []
  | c :: rest =>
    let form :=
      if c.toNat == 0x3A3 then
        [Char.ofNat (if leadsToCased before && !leadsToCased rest then 0x3C2 else 0x3C3)]
      else lowerChar c
    form ++ lowerFrom (c :: before) rest

/-- The upper form of a text. -/
def toUpper (s : String) : String := String.ofList (s.toList.flatMap upperChar)

/-- The lower form of a text. -/
def toLower (s : String) : String := String.ofList (lowerFrom [] s.toList)

end RowQuery.Text
