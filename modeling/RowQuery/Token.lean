import RowQuery.Fault
import RowQuery.Text.Blank
import RowQuery.Text.Letter

/-!
The tokens of an expression. A cursor stands at a place in the text; the next token is the longest
lexeme there after blank space. A cursor always moves on, past a faulty lexeme too, so every text has a
finite scan: the tokens up to its end or up to the first fault.
-/

namespace RowQuery

/-- The kinds of tokens. -/
inductive TokenKind where
  | identifier | stringLiteral | integerLiteral | realLiteral
  | exclamation | percent | ampersand | asterisk | plus | minus | slash | lessThan | equal
  | greaterThan | question | bar | exclamationEqual | doubleAmpersand | lessThanEqual | lessGreater
  | doubleEqual | greaterThanEqual | doubleBar
  | openParen | closeParen | openBracket | closeBracket | comma | dot | colon
  | done
deriving DecidableEq, Repr

/-- A token: its kind, its characters, and the number of characters before it. -/
structure Token where
  kind : TokenKind
  text : String
  pos : Nat
deriving DecidableEq, Repr

/-- Whether a token is an identifier that spells a word, in any case. -/
def Token.isWord (t : Token) (word : String) : Bool :=
  t.kind == .identifier && Text.sameName t.text word

namespace Lexeme

/-- The kind of a lexeme, or the fault in it with its distance from the start; and the number of
characters that the lexeme has after its first. -/
abbrev Outcome := Except (Fault × Nat) TokenKind × Nat

/-- A lexeme of two characters if the second one is as given, and of one otherwise. -/
def either (second : Char) (both alone : TokenKind) : List Char → Outcome
  | c :: _ => if c = second then (.ok both, 1) else (.ok alone, 0)
  | [] => (.ok alone, 0)

/-- The number of characters up to the end of a literal, its last delimiter included; a doubled
delimiter does not end it. -/
def quotedLength? (quote : Char) : List Char → Option Nat
  | [] => none
  | c :: cs =>
    if c = quote then
      match cs with
      | [] => some 1
      | d :: ds => if d = quote then (quotedLength? quote ds).map (· + 2) else some 1
    else (quotedLength? quote cs).map (· + 1)

/-- The characters that continue an identifier. -/
def continuesName (c : Char) : Bool := Text.isLetterOrNumeral c || c == '_'

/-- The characters that start an identifier. -/
def startsName (c : Char) : Bool := Text.isLetter c || c == '@' || c == '_'

/-- The length of the digits at the front of a text. -/
def digitCount (cs : List Char) : Nat := (cs.takeWhile Char.isDigit).length

/-- The length of the fractional part of a number, or of what is wrong with it. -/
def fractionLength (cs : List Char) : Except Nat Nat :=
  match cs with
  | '.' :: rest => if digitCount rest = 0 then .error 1 else .ok (1 + digitCount rest)
  | _ => .ok 0

/-- The length of the exponent of a number, or of what is wrong with it. -/
def exponentLength (cs : List Char) : Except Nat Nat :=
  match cs with
  | c :: rest =>
    if c = 'e' ∨ c = 'E' then
      let sign := match rest with
        | s :: _ => if s = '+' ∨ s = '-' then 1 else 0
        | [] => 0
      let digits := digitCount (rest.drop sign)
      if digits = 0 then .error (1 + sign) else .ok (1 + sign + digits)
    else .ok 0
  | [] => .ok 0

/-- The length of the suffix that marks a short real number. -/
def suffixLength (cs : List Char) : Nat :=
  match cs with
  | c :: _ => if c = 'f' ∨ c = 'F' then 1 else 0
  | [] => 0

/-- A number, after its first digit: digits, a fraction, an exponent and a suffix. -/
def number (cs : List Char) : Outcome :=
  let whole := digitCount cs
  match fractionLength (cs.drop whole) with
  | .error n => (.error (.digitExpected, 1 + whole + n), whole + n)
  | .ok fraction =>
    match exponentLength (cs.drop (whole + fraction)) with
    | .error n =>
      (.error (.digitExpected, 1 + whole + fraction + n), whole + fraction + n)
    | .ok exponent =>
      let suffix := suffixLength (cs.drop (whole + fraction + exponent))
      let kind := if fraction + exponent + suffix = 0 then .integerLiteral else .realLiteral
      (.ok kind, whole + fraction + exponent + suffix)

/-- The lexeme that starts with a character and goes on with the characters after it. -/
def read (c : Char) (cs : List Char) : Outcome :=
  match c with
  | '!' => either '=' .exclamationEqual .exclamation cs
  | '%' => (.ok .percent, 0)
  | '&' => either '&' .doubleAmpersand .ampersand cs
  | '(' => (.ok .openParen, 0)
  | ')' => (.ok .closeParen, 0)
  | '*' => (.ok .asterisk, 0)
  | '+' => (.ok .plus, 0)
  | ',' => (.ok .comma, 0)
  | '-' => (.ok .minus, 0)
  | '.' => (.ok .dot, 0)
  | '/' => (.ok .slash, 0)
  | ':' => (.ok .colon, 0)
  | '<' =>
    match cs with
    | '=' :: _ => (.ok .lessThanEqual, 1)
    | '>' :: _ => (.ok .lessGreater, 1)
    | _ => (.ok .lessThan, 0)
  | '=' => either '=' .doubleEqual .equal cs
  | '>' => either '=' .greaterThanEqual .greaterThan cs
  | '?' => (.ok .question, 0)
  | '[' => (.ok .openBracket, 0)
  | ']' => (.ok .closeBracket, 0)
  | '|' => either '|' .doubleBar .bar cs
  | c =>
    if c = '"' ∨ c = '\'' then
      match quotedLength? c cs with
      | some n => (.ok .stringLiteral, n)
      | none => (.error (.unterminatedString, 1 + cs.length), cs.length)
    else if startsName c then (.ok .identifier, (cs.takeWhile continuesName).length)
    else if c.isDigit then number cs
    else (.error (.invalidCharacter c, 0), 0)

end Lexeme

/-- A place in a text: the number of characters before it and those after it. -/
structure Cursor where
  pos : Nat
  rest : List Char

/-- How a scan ends: at the end of the text, or with a fault. -/
inductive Stop where
  | finished (pos : Nat)
  | failed (e : CompileError)

/-- The tokens of a text up to its end or to the first fault. -/
structure Scan where
  tokens : List Token
  stop : Stop

namespace Cursor

/-- The place after blank space. -/
def skipBlank (k : Cursor) : Cursor :=
  ⟨k.pos + (k.rest.takeWhile Text.isBlank).length, k.rest.dropWhile Text.isBlank⟩

/-- The token at a place, or the fault in it, and the place after it. At the end of the text there is
an empty token. -/
def next (k : Cursor) : Except CompileError Token × Cursor :=
  let k := k.skipBlank
  match k.rest with
  | [] => (.ok ⟨.done, "", k.pos⟩, k)
  | c :: cs =>
    let (outcome, n) := Lexeme.read c cs
    let after : Cursor := ⟨k.pos + n + 1, cs.drop n⟩
    match outcome with
    | .ok kind => (.ok ⟨kind, String.ofList (c :: cs.take n), k.pos⟩, after)
    | .error (fault, offset) => (.error ⟨fault, k.pos + offset⟩, after)

/-- The scan from a place on. -/
def scan (k : Cursor) : Scan :=
  match _h : k.skipBlank.rest with
  | [] => ⟨[], .finished k.skipBlank.pos⟩
  | c :: cs =>
    let (outcome, n) := Lexeme.read c cs
    match outcome with
    | .ok kind =>
      let later := scan ⟨k.skipBlank.pos + n + 1, cs.drop n⟩
      ⟨⟨kind, String.ofList (c :: cs.take n), k.skipBlank.pos⟩ :: later.tokens, later.stop⟩
    | .error (fault, offset) => ⟨[], .failed ⟨fault, k.skipBlank.pos + offset⟩⟩
termination_by k.rest.length
decreasing_by
  have skipped : k.skipBlank.rest.length ≤ k.rest.length := (List.dropWhile_sublist _).length_le
  rw [_h] at skipped
  simp only [List.length_cons, List.length_drop] at skipped ⊢
  omega

end Cursor

/-- The scan of a text. -/
def scan (text : String) : Scan := Cursor.scan ⟨0, text.toList⟩

/-- The tokens of a text, with the empty one at its end, unless there is a fault. -/
def tokenize (text : String) : Except CompileError (List Token) :=
  let s := scan text
  match s.stop with
  | .finished pos => .ok (s.tokens ++ [⟨.done, "", pos⟩])
  | .failed e => .error e

end RowQuery
