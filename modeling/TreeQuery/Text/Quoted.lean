import TreeQuery.Text.Printable

/-!
# Quoted text

A text between double quotes, as messages show it: a quote and a backslash take a backslash, the usual control
characters have letters, and every other character that is not printable is written by its number.
-/

namespace TreeQuery.Text

/-- The digits of a number in base sixteen, in lower case. -/
def hexDigits (n : Nat) : List Char := Nat.toDigits 16 n

/-- How one character is written between quotes. -/
def quotedChar (c : Char) : List Char :=
  if c = '"' then ['\\', '"']
  else if c = '\\' then ['\\', '\\']
  else if c = '\n' then ['\\', 'n']
  else if c = '\r' then ['\\', 'r']
  else if c = '\t' then ['\\', 't']
  else if c = '\x00' then ['\\', '0']
  else if isPrintable c then [c]
  else ['\\', 'u', '\x7b'] ++ hexDigits c.toNat ++ ['\x7d']

/-- A text between double quotes. -/
def quotedChars (cs : List Char) : List Char := '"' :: (cs.flatMap quotedChar ++ ['"'])

/-- A string between double quotes. -/
def quoted (s : String) : String := String.ofList (quotedChars s.toList)

end TreeQuery.Text
