import TreeQuery.Error
import TreeQuery.Number.Bounds
import TreeQuery.Text.Blank

/-!
# Cutting a text into tokens

`scan` reads the token at the start of a text; its first character decides its form, and each form takes as many
characters as it can. `tokenize` reads token after token and skips the blanks between them; every lexeme carries the
bytes it takes.
-/

namespace TreeQuery.Token

/-- Whether a name can start with a character. -/
def isNameStart (c : Char) : Bool := c.isAlpha || c == '_'

/-- Whether a name can go on with a character. -/
def isNamePart (c : Char) : Bool := c.isAlphanum || c == '_'

/-- The leading digits of a text. -/
def leadingDigits (cs : List Char) : List Char := cs.takeWhile Char.isDigit

/-- What follows the leading digits of a text. -/
def afterDigits (cs : List Char) : List Char := cs.dropWhile Char.isDigit

/-- The year, the month and the day of a date at the start of a text: three groups of digits with hyphens between. -/
def dateGroups? (cs : List Char) : Option (List Char × List Char × List Char) :=
  match afterDigits cs with
  | '-' :: rest =>
    match afterDigits rest with
    | '-' :: last =>
      if leadingDigits cs = [] ∨ leadingDigits rest = [] ∨ leadingDigits last = [] then none
      else some (leadingDigits cs, leadingDigits rest, leadingDigits last)
    | _ => none
  | _ => none

/-- The digits of the fraction after a whole number, if a point and a digit follow it. -/
def fractionDigits : List Char → List Char
  | '.' :: rest => leadingDigits rest
  | _ => []

/-- The integer with a sign and a magnitude, if it fits 64 bits. -/
def integer? (negative : Bool) (magnitude : Nat) : Option Int64 :=
  if negative then (if magnitude ≤ Number.int64Bound then some (Int64.ofInt (-magnitude)) else none)
  else if magnitude < Number.int64Bound then some (Int64.ofNat magnitude) else none

/-- Reads an unsigned number that starts with a digit; `signs` counts the characters of the sign before it. -/
def scanNumber (negative : Bool) (signs : Nat) (cs : List Char) : Except LexicalFault (Token × Nat) :=
  let whole := leadingDigits cs
  match fractionDigits (afterDigits cs) with
  | [] =>
    match integer? negative (Nat.ofDigitChars 10 whole 0) with
    | some n => .ok (.int n, signs + whole.length)
    | none => .error .integerOutOfRange
  | fraction =>
    .ok (.float (Binary64.ofDecimal negative (Nat.ofDigitChars 10 (whole ++ fraction) 0) (-fraction.length)),
      signs + whole.length + 1 + fraction.length)

/-- Reads a date or a number that starts with a digit. -/
def scanDigits (cs : List Char) : Except LexicalFault (Token × Nat) :=
  match dateGroups? cs with
  | some (year, month, day) =>
    match Date.ofDigits? year month day with
    | some d => .ok (.date d, year.length + 1 + month.length + 1 + day.length)
    | none => .error .invalidDate
  | none => scanNumber false 0 cs

/-- The text up to a closing quote, and how many characters were read, with the quote. A backslash stands before a
character that is meant as it is. -/
def stringBody? : List Char → Option (List Char × Nat)
  | [] => none
  | '"' :: _ => some ([], 1)
  | '\\' :: c :: rest => (stringBody? rest).map fun (body, n) => (c :: body, n + 2)
  | c :: rest => (stringBody? rest).map fun (body, n) => (c :: body, n + 1)

/-- Reads the token that starts with a character, and tells how many characters it takes. -/
def scan : Char → List Char → Except LexicalFault (Token × Nat)
  | '"', rest =>
    match stringBody? rest with
    | some (body, n) => .ok (.string (String.ofList body), n + 1)
    | none => .error .unterminatedString
  | '>', '=' :: _ => .ok (.comparison .greaterOrEqual, 2)
  | '<', '=' :: _ => .ok (.comparison .lessOrEqual, 2)
  | '!', '=' :: _ => .ok (.comparison .notEqual, 2)
  | '>', _ => .ok (.comparison .greater, 1)
  | '<', _ => .ok (.comparison .less, 1)
  | '=', _ => .ok (.comparison .equal, 1)
  | '-', rest => if leadingDigits rest = [] then .error (.unexpectedCharacter '-') else scanNumber true 1 rest
  | c, rest =>
    if c.isDigit then scanDigits (c :: rest)
    else if isNameStart c then
      let name := c :: rest.takeWhile isNamePart
      .ok (.ident (String.ofList name), name.length)
    else
      match Symbol.ofChar? c with
      | some s => .ok (.symbol s, 1)
      | none => .error (.unexpectedCharacter c)

/-- The lexemes of a text of which the first `skip` characters belong to a token already read; the text starts at
byte `offset`. -/
def lexemes : List Char → (skip offset : Nat) → Except Error (List Lexeme)
  | [], _, _ => .ok []
  | c :: rest, skip + 1, offset => lexemes rest skip (offset + c.utf8Size)
  | c :: rest, 0, offset =>
    if Text.isBlank c then lexemes rest 0 (offset + c.utf8Size)
    else
      match scan c rest with
      | .error fault => .error (.malformed offset (.lexical fault))
      | .ok (token, n) => do
        let later ← lexemes rest (n - 1) (offset + c.utf8Size)
        return ⟨token, offset, offset + Text.byteLength ((c :: rest).take n)⟩ :: later

/-- The tokens of a text, in order, with the bytes they take. -/
def tokenize (text : String) : Except Error (List Lexeme) := lexemes text.toList 0 0

example : (tokenize "q = (id)").toOption.map (·.map fun l => (l.start, l.stop)) =
    some [(0, 1), (2, 3), (4, 5), (5, 7), (7, 8)] := by decide +kernel

end TreeQuery.Token
