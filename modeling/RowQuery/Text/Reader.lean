/-!
Readers of text: functions that take characters from the front of a text and fail where it is not as
they expect. A loop of a reader takes at least one character each time, so the length of the text
bounds it.
-/

namespace RowQuery

/-- A reader of what is left of a text. -/
abbrev Reader := StateT (List Char) Option

namespace Reader

def fail {α : Type} : Reader α := fun _ => none

/-- What a partial function gives. -/
def ofOption {α : Type} : Option α → Reader α
  | some a => pure a
  | none => fail

/-- The next character, left in place. -/
def peek? : Reader (Option Char) := return (← get).head?

/-- Takes the next character. -/
def next : Reader Char := fun cs =>
  match cs with
  | c :: rest => some (c, rest)
  | [] => none

/-- Takes a given character. -/
def expect (c : Char) : Reader Unit := do
  if (← next) ≠ c then fail

/-- Takes given characters. -/
def expectAll (cs : List Char) : Reader Unit := cs.forM expect

/-- Takes a given character if it comes next, and says whether it did. -/
def taken (c : Char) : Reader Bool := do
  if (← peek?) = some c then
    expect c
    return true
  return false

/-- Whether given characters come next, left in place. -/
def comesNext (cs : List Char) : Reader Bool := return cs.isPrefixOf (← get)

/-- Takes characters as long as they satisfy a test. -/
def takeWhile (test : Char → Bool) : Reader (List Char) :=
  modifyGet fun cs => (cs.takeWhile test, cs.dropWhile test)

/-- Repeats a step at most so many times, until it has nothing to do. -/
def repeatUpTo {σ : Type} (step : σ → Reader (Option σ)) : Nat → σ → Reader σ
  | 0, s => pure s
  | n + 1, s => do
    match ← step s with
    | some s => repeatUpTo step n s
    | none => pure s

/-- Repeats a step that takes a character, until it has nothing to do. -/
def repeatStep {σ : Type} (step : σ → Reader (Option σ)) (s : σ) : Reader σ := do
  repeatUpTo step ((← get).length + 1) s

/-- Reads a whole text. -/
def whole? {α : Type} (r : Reader α) (text : String) : Option α :=
  match r text.toList with
  | some (a, []) => some a
  | _ => none

end Reader

end RowQuery
