import TreeQuery.Toml.Assembly
import TreeQuery.Toml.Number
import TreeQuery.Toml.Text

/-!
# Reading TOML texts

Keys, values, headers and statements, and the document they make. Arrays and inline tables may be nested as deep as
`maxNesting`, and a dotted key may have as many parts.
-/

namespace TreeQuery.Toml

/-- How deep values may be nested, and how many parts a key may have. -/
def maxNesting : Nat := 79

/-- Whether a character may stand in a key without quotes. -/
def isBare (c : Char) : Bool := c.isAlphanum || c == '-' || c == '_'

/-- Reads a part of a key with blanks around it. -/
def keyPart? : Reader String := fun cs => do
  let cs := skipSpace cs
  let (part, rest) ← match cs with
    | '"' :: _ | '\'' :: _ => lineString? cs
    | _ =>
      let bare := cs.takeWhile isBare
      if bare.isEmpty then none else some (String.ofList bare, cs.drop bare.length)
  return (part, skipSpace rest)

/-- Reads a key: parts with dots between them. -/
def key? : Reader KeyPath := fun cs => do
  let (parts, rest) ← separated '.' keyPart? cs
  if maxNesting < parts.length then none
  else return (⟨parts.dropLast, ← parts.getLast?⟩, rest)

/-- Reads an entry whose value is read by `p`. -/
def assignment? (p : Reader Toml) : Reader (KeyPath × Toml) := fun cs => do
  let (key, rest) ← key? cs
  let rest ← char? '=' rest
  let (v, rest) ← p (skipSpace rest)
  return ((key, v), rest)

/-- Reads the rest of an array after its opening bracket. A comma may follow the last item. -/
def arrayItems? (p : Reader Toml) : Reader Toml := fun cs =>
  let item : Reader Toml := fun cs => (p (skipLines cs)).map fun (v, rest) => (v, skipLines rest)
  let (found, rest) := (separated ',' item cs).getD ([], skipLines cs)
  let rest := if found.isEmpty then rest else skipLines ((char? ',' rest).getD rest)
  (char? ']' rest).map fun rest => (.array found, rest)

/-- Reads the rest of an inline table after its opening brace, all on one line. -/
def inlineEntries? (p : Reader Toml) : Reader Toml := fun cs => do
  let item : Reader (KeyPath × Toml) := fun cs => (assignment? p cs).map fun (e, rest) => (e, skipSpace rest)
  let (found, rest) := (separated ',' item cs).getD ([], skipSpace cs)
  let rest ← char? '\x7d' rest
  return (← inlineTable? found, rest)

/-- Reads a value in which arrays and inline tables are nested to a depth at most. -/
def value? : (depth : Nat) → Reader Toml
  | depth, '[' :: rest =>
    match depth with
    | depth + 1 => arrayItems? (value? depth) rest
    | 0 => none
  | depth, '\x7b' :: rest =>
    match depth with
    | depth + 1 => inlineEntries? (value? depth) rest
    | 0 => none
  | _, cs@('"' :: _) | _, cs@('\'' :: _) => (string? cs).map fun (s, rest) => (.string s, rest)
  | _, cs => (scalar? cs).map fun (kind, rest) => (.scalar kind, rest)

/-- A line of a document, or more lines if a value takes them. -/
inductive Statement where
  | header (kind : Header) (name : KeyPath)
  | entry (key : KeyPath) (v : Toml)
  | blank

/-- Reads a statement up to the end of its line. -/
def statement? : Reader Statement := fun cs =>
  match skipSpace cs with
  | [] => if cs.isEmpty then none else some (.blank, [])
  | '#' :: rest => (lineEnd? ('#' :: rest)).map fun rest => (.blank, rest)
  | '\n' :: rest | '\r' :: '\n' :: rest => some (.blank, rest)
  | '[' :: '[' :: rest => do
    let (name, rest) ← key? rest
    return (.header .arrayElement name, ← lineEnd? (← word? [']', ']'] rest))
  | '[' :: rest => do
    let (name, rest) ← key? rest
    return (.header .table name, ← lineEnd? (← char? ']' rest))
  | cs => do
    let ((key, v), rest) ← assignment? (value? maxNesting) cs
    return (.entry key v, ← lineEnd? rest)

/-- The entries before the first header, and the sections after it. -/
def sections : List Statement → List (KeyPath × Toml) × List Section
  | [] => ([], [])
  | .header kind name :: rest =>
    let (entries, later) := sections rest
    ([], ⟨kind, name, entries⟩ :: later)
  | .entry key v :: rest =>
    let (entries, later) := sections rest
    ((key, v) :: entries, later)
  | .blank :: rest => sections rest

/-- The text without the mark of its byte order. -/
def skipByteOrderMark : List Char → List Char
  | '\ufeff' :: rest => rest
  | cs => cs

/-- The entries of the document that a text holds. -/
def read? (s : String) : Option (List (String × Toml)) :=
  let (statements, rest) := many statement? (skipByteOrderMark s.toList)
  if rest.isEmpty then
    let (entries, later) := sections statements
    assemble? entries later
  else none

end TreeQuery.Toml
