/-!
# Readers of TOML texts

A reader takes what it can read from the start of a text and gives the rest; it gives nothing if the text does not
start with what it reads.
-/

namespace TreeQuery.Toml

/-- Reads something at the start of a text. -/
abbrev Reader (α : Type) := List Char → Option (α × List Char)

/-- Whether a character is a blank inside a line. -/
def isSpace (c : Char) : Bool := c == ' ' || c == '\t'

/-- Whether a character may stand in a comment or in a string as it is. -/
def isPlain (c : Char) : Bool := c == '\t' || (0x20 ≤ c.toNat && c.toNat != 0x7f)

/-- The text after blanks. -/
def skipSpace (cs : List Char) : List Char := cs.dropWhile isSpace

/-- Reads the end of a line. -/
def newline? : List Char → Option (List Char)
  | '\n' :: rest => some rest
  | '\r' :: '\n' :: rest => some rest
  | _ => none

/-- The text after a comment, if there is one. -/
def skipComment : List Char → List Char
  | '#' :: rest => rest.dropWhile isPlain
  | cs => cs

/-- Reads what may follow a statement: blanks, a comment, and the end of the line or of the text. -/
def lineEnd? (cs : List Char) : Option (List Char) :=
  match skipComment (skipSpace cs) with
  | [] => some []
  | cs => newline? cs

/-- Reads a character. -/
def char? (c : Char) : List Char → Option (List Char)
  | d :: rest => if d = c then some rest else none
  | [] => none

/-- Reads a fixed text. -/
def word? : List Char → List Char → Option (List Char)
  | [], cs => some cs
  | c :: word, cs => (char? c cs).bind (word? word)

/-- Reads as many things as there are, one after the other; each takes at least a character. -/
def many {α : Type} (p : Reader α) (cs : List Char) : List α × List Char :=
  match p cs with
  | some (a, rest) =>
    if rest.length < cs.length then
      let (found, rest) := many p rest
      (a :: found, rest)
    else ([], cs)
  | none => ([], cs)
termination_by cs.length

/-- Reads one thing or more with a separator between them. -/
def separated {α : Type} (separator : Char) (p : Reader α) : Reader (List α) := fun cs => do
  let (first, rest) ← p cs
  let (later, rest) := many (fun cs => (char? separator cs).bind p) rest
  return (first :: later, rest)

/-- Reads the first of two things that is there. -/
def orElse {α : Type} (p q : Reader α) : Reader α := fun cs => (p cs).or (q cs)

/-- The text after any number of blanks, comments and line ends, as they may stand inside an array. -/
def skipLines (cs : List Char) : List Char :=
  (many (fun cs => do
    match cs with
    | [] => none
    | c :: rest =>
      if isSpace c then some ((), rest)
      else if c = '#' then return ((), ← newline? (skipComment cs))
      else return ((), ← newline? cs)) cs).2

end TreeQuery.Toml
