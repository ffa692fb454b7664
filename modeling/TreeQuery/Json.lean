import TreeQuery.Number.Style

/-!
# JSON documents

A JSON document as a value, and its compact text. The strings of a document are lists of code points: an escape may
name half of a surrogate pair alone, and then no text has the string (`toText?`).

- the code points of a text are its text (`toText?_codePoints`).
-/

namespace TreeQuery

namespace Json

/-- The string of a document, by code points; surrogates may be among them. -/
abbrev Text := List Nat

/-- The code points of a text. -/
def codePoints (s : String) : Text := s.toList.map Char.toNat

/-- The text of some code points, unless a surrogate is among them. -/
def toText? (t : Text) : Option String :=
  if t.all fun n => decide n.isValidChar then some (String.ofList (t.map Char.ofNat)) else none

theorem toText?_codePoints (s : String) : toText? (codePoints s) = some s := by
  have h : (codePoints s).all (fun n => decide n.isValidChar) = true := by
    simp only [codePoints, List.all_eq_true, List.mem_map, decide_eq_true_eq]
    rintro n ⟨c, -, rfl⟩
    exact c.valid
  rw [toText?, if_pos h, codePoints, List.map_map]
  congr 1
  have : (Char.ofNat ∘ Char.toNat) = id := by funext c; simp
  rw [this, List.map_id, String.ofList_toList]

end Json

/-- A JSON document. -/
inductive Json where
  | null
  | bool (b : Bool)
  | number (n : Number.Literal)
  | string (t : Json.Text)
  | array (items : List Json)
  /-- The members in order, repeated names included. -/
  | object (members : List (Json.Text × Json))

namespace Json

/-- The string with a text. -/
def ofText (s : String) : Json := .string (codePoints s)

/-- The number of an integer. -/
def ofInt (n : Int) : Json := .number (.ofInt n)

/-- The object with named members. -/
def ofMembers (members : List (String × Json)) : Json :=
  .object (members.map fun (name, value) => (codePoints name, value))

/-- The object with one member. -/
def tagged (name : String) (value : Json) : Json := ofMembers [(name, value)]

/-- A number of one byte in two digits of base sixteen. -/
def hexByte (n : Nat) : List Char := (Nat.toDigits 16 n).leftpad 2 '0'

/-- How a code point is written in a string: quotes, backslashes and control characters are escaped. -/
def stringChar (n : Nat) : List Char :=
  if n = 0x22 then ['\\', '"']
  else if n = 0x5c then ['\\', '\\']
  else if n = 0x08 then ['\\', 'b']
  else if n = 0x09 then ['\\', 't']
  else if n = 0x0a then ['\\', 'n']
  else if n = 0x0c then ['\\', 'f']
  else if n = 0x0d then ['\\', 'r']
  else if n < 0x20 then ['\\', 'u', '0', '0'] ++ hexByte n
  else [Char.ofNat n]

/-- A string between double quotes. -/
def stringChars (t : Text) : List Char := '"' :: (t.flatMap stringChar ++ ['"'])

mutual

/-- The compact text of a document. -/
def chars : Json → List Char
  | .null => "null".toList
  | .bool b => (if b then "true" else "false").toList
  | .number n => n.chars
  | .string t => stringChars t
  | .array items => '[' :: (itemChars items ++ [']'])
  | .object members => '\x7b' :: (memberChars members ++ ['\x7d'])

/-- The items of an array with commas between them. -/
def itemChars : List Json → List Char
  | [] => []
  | [j] => chars j
  | j :: k :: rest => chars j ++ ',' :: itemChars (k :: rest)

/-- The members of an object with commas between them. -/
def memberChars : List (Text × Json) → List Char
  | [] => []
  | [(name, j)] => stringChars name ++ ':' :: chars j
  | (name, j) :: m :: rest => stringChars name ++ ':' :: (chars j ++ ',' :: memberChars (m :: rest))

end

/-- The compact text of a document. -/
def text (j : Json) : String := String.ofList j.chars

end Json

end TreeQuery
