import TreeQuery.Json

/-!
# Reading JSON

A text is cut into JSON tokens, and the tokens are read one at a time: the state holds the arrays and objects that are
still open. A text that is no document has no value.
-/

namespace TreeQuery.Json

/-- A token of a JSON text. -/
inductive Token where
  | openBracket
  | closeBracket
  | openBrace
  | closeBrace
  | comma
  | colon
  /-- A document that is one token. -/
  | scalar (j : Json)

/-- Whether JSON lets a character stand between tokens. -/
def isSpace (c : Char) : Bool := c == ' ' || c == '\t' || c == '\n' || c == '\r'

/-- The value of a digit of base sixteen. -/
def hexValue? (c : Char) : Option Nat :=
  if '0' ≤ c ∧ c ≤ '9' then some (c.toNat - '0'.toNat)
  else if 'a' ≤ c ∧ c ≤ 'f' then some (c.toNat - 'a'.toNat + 10)
  else if 'A' ≤ c ∧ c ≤ 'F' then some (c.toNat - 'A'.toNat + 10)
  else none

/-- The number of four digits of base sixteen. -/
def fourHex? (a b c d : Char) : Option Nat := do
  return (((← hexValue? a) * 16 + (← hexValue? b)) * 16 + (← hexValue? c)) * 16 + (← hexValue? d)

/-- The character that a letter after a backslash stands for. -/
def simpleEscape? : Char → Option Nat
  | '"' => some 0x22
  | '\\' => some 0x5c
  | '/' => some 0x2f
  | 'b' => some 0x08
  | 'f' => some 0x0c
  | 'n' => some 0x0a
  | 'r' => some 0x0d
  | 't' => some 0x09
  | _ => none

/-- The units of a string up to its closing quote, and how many characters were read, with the quote. Escapes that
name surrogates are not yet paired. -/
def stringUnits? : List Char → Option (List Nat × Nat)
  | [] => none
  | '"' :: _ => some ([], 1)
  | '\\' :: 'u' :: a :: b :: c :: d :: rest => do
    let unit ← fourHex? a b c d
    let (units, n) ← stringUnits? rest
    return (unit :: units, n + 6)
  | '\\' :: c :: rest => do
    let unit ← simpleEscape? c
    let (units, n) ← stringUnits? rest
    return (unit :: units, n + 2)
  | c :: rest => do
    if c.toNat < 0x20 ∨ c = '\\' then none
    else
      let (units, n) ← stringUnits? rest
      return (c.toNat :: units, n + 1)

/-- Units with the two halves of each surrogate pair put together. -/
def pairSurrogates : List Nat → Text
  | high :: low :: rest =>
    if 0xd800 ≤ high ∧ high < 0xdc00 ∧ 0xdc00 ≤ low ∧ low < 0xe000 then
      (0x10000 + (high - 0xd800) * 0x400 + (low - 0xdc00)) :: pairSurrogates rest
    else high :: pairSurrogates (low :: rest)
  | units => units

/-- The digits before the point: no other digit follows a leading zero. -/
def wholeDigits (cs : List Char) : List Char :=
  match cs with
  | '0' :: _ => ['0']
  | _ => cs.takeWhile Char.isDigit

/-- An exponent at the start of a text, and its length; `none` if there is one without digits. -/
def scanExponent? (cs : List Char) : Option (Option (Bool × List Char) × Nat) :=
  match cs with
  | e :: rest =>
    if e = 'e' ∨ e = 'E' then
      let (negative, signs, digits) := match rest with
        | '+' :: more => (false, 1, more.takeWhile Char.isDigit)
        | '-' :: more => (true, 1, more.takeWhile Char.isDigit)
        | more => (false, 0, more.takeWhile Char.isDigit)
      if digits.isEmpty then none else some (some (negative, digits), 1 + signs + digits.length)
    else some (none, 0)
  | [] => some (none, 0)

/-- A fraction at the start of a text, and its length; `none` if there is a point without digits. -/
def scanFraction? (cs : List Char) : Option (List Char × Nat) :=
  match cs with
  | '.' :: rest =>
    let digits := rest.takeWhile Char.isDigit
    if digits.isEmpty then none else some (digits, 1 + digits.length)
  | _ => some ([], 0)

/-- The number after a sign of `signs` characters, and the length of both. -/
def scanNumber? (negative : Bool) (signs : Nat) (cs : List Char) : Option (Json × Nat) := do
  let whole := wholeDigits cs
  if whole.isEmpty then none
  else
    let (fraction, n) ← scanFraction? (cs.drop whole.length)
    let (exponent, m) ← scanExponent? (cs.drop (whole.length + n))
    return (.number ⟨negative, whole, fraction, exponent⟩, signs + whole.length + n + m)

/-- A word that stands for a document, if the text starts with it. -/
def scanWord? (word : String) (j : Json) (cs : List Char) : Option (Token × Nat) :=
  if word.toList.isPrefixOf cs then some (.scalar j, word.length) else none

/-- The token that starts with a character, and how many characters it takes. -/
def scan? (c : Char) (rest : List Char) : Option (Token × Nat) :=
  match c with
  | '[' => some (.openBracket, 1)
  | ']' => some (.closeBracket, 1)
  | '\x7b' => some (.openBrace, 1)
  | '\x7d' => some (.closeBrace, 1)
  | ',' => some (.comma, 1)
  | ':' => some (.colon, 1)
  | '"' => (stringUnits? rest).map fun (units, n) => (.scalar (.string (pairSurrogates units)), n + 1)
  | '-' => (scanNumber? true 1 rest).map fun (j, n) => (.scalar j, n)
  | 'n' => scanWord? "null" .null (c :: rest)
  | 't' => scanWord? "true" (.bool true) (c :: rest)
  | 'f' => scanWord? "false" (.bool false) (c :: rest)
  | _ => (scanNumber? false 0 (c :: rest)).map fun (j, n) => (.scalar j, n)

/-- The tokens of a text of which the first `skip` characters belong to a token already read. -/
def tokens? : List Char → (skip : Nat) → Option (List Token)
  | [], _ => some []
  | _ :: rest, skip + 1 => tokens? rest skip
  | c :: rest, 0 =>
    if isSpace c then tokens? rest 0
    else do
      let (token, n) ← scan? c rest
      return token :: (← tokens? rest (n - 1))

/-- A container that is still open, with what it holds so far. -/
inductive Open where
  | array (items : List Json)
  | object (members : List (Text × Json))
  /-- An object with the name of the member that is being read. -/
  | member (members : List (Text × Json)) (name : Text)

/-- What may come next. -/
inductive State where
  /-- A document. -/
  | value (outer : List Open)
  /-- A document, or the end of the array that has just been opened. -/
  | firstItem (outer : List Open)
  /-- A name, or the end of the object that has just been opened. -/
  | firstName (outer : List Open)
  | name (outer : List Open) (members : List (Text × Json))
  | colon (outer : List Open) (members : List (Text × Json)) (name : Text)
  /-- A comma or the end of the innermost container. -/
  | next (outer : List Open)
  | done (j : Json)

/-- The state after a complete document inside some containers. -/
def complete (j : Json) : List Open → State
  | [] => .done j
  | .array items :: outer => .next (.array (items ++ [j]) :: outer)
  | .member members name :: outer => .next (.object (members ++ [(name, j)]) :: outer)
  | .object members :: outer => .next (.object members :: outer)

/-- The move on a token where a document may come. -/
def beginValue? (outer : List Open) : Token → Option State
  | .scalar j => some (complete j outer)
  | .openBracket => some (.firstItem outer)
  | .openBrace => some (.firstName outer)
  | _ => none

/-- The move on one token. -/
def State.step? : State → Token → Option State
  | .value outer, token => beginValue? outer token
  | .firstItem outer, .closeBracket => some (complete (.array []) outer)
  | .firstItem outer, token => beginValue? (.array [] :: outer) token
  | .firstName outer, .closeBrace => some (complete (.object []) outer)
  | .firstName outer, .scalar (.string t) => some (.colon outer [] t)
  | .name outer members, .scalar (.string t) => some (.colon outer members t)
  | .colon outer members t, .colon => some (.value (.member members t :: outer))
  | .next (.array items :: outer), .comma => some (.value (.array items :: outer))
  | .next (.array items :: outer), .closeBracket => some (complete (.array items) outer)
  | .next (.object members :: outer), .comma => some (.name outer members)
  | .next (.object members :: outer), .closeBrace => some (complete (.object members) outer)
  | _, _ => none

/-- The state after some tokens. -/
def advance? : State → List Token → Option State
  | s, [] => some s
  | s, token :: rest => (s.step? token).bind fun next => advance? next rest

/-- The document that a text holds. -/
def read? (s : String) : Option Json := do
  match ← advance? (.value []) (← tokens? s.toList 0) with
  | .done j => some j
  | _ => none

example : (read? "[1, -2.50e+3, \"\\u00e9\"]").map text = some "[1,-2.50e+3,\"é\"]" := by decide +kernel
example : (read? "[1,]").isNone ∧ (read? "01").isNone ∧ (read? "\"\t\"").isNone := by decide +kernel

end TreeQuery.Json
