import TreeQuery.Toml.Scan

/-!
# Strings of TOML texts

The four forms of strings: basic ones in double quotes, with escapes, and literal ones in single quotes, without; each
on one line, or on several between three quotes. Every line end inside a string counts as one line feed.
-/

namespace TreeQuery.Toml

/-- The value of a digit of base sixteen. -/
def hexDigit? (c : Char) : Option Nat :=
  if '0' ≤ c ∧ c ≤ '9' then some (c.toNat - '0'.toNat)
  else if 'a' ≤ c ∧ c ≤ 'f' then some (c.toNat - 'a'.toNat + 10)
  else if 'A' ≤ c ∧ c ≤ 'F' then some (c.toNat - 'A'.toNat + 10)
  else none

/-- The character with a number in base sixteen; surrogates are none. -/
def charOfHex? (digits : List Char) : Option Char := do
  let n ← digits.foldlM (fun n d => (hexDigit? d).map (n * 16 + ·)) 0
  if n.isValidChar then some (Char.ofNat n) else none

/-- The character that a letter after a backslash stands for. -/
def escape? : Char → Option Char
  | 'b' => some '\x08'
  | 't' => some '\t'
  | 'n' => some '\n'
  | 'f' => some '\x0c'
  | 'r' => some '\r'
  | '"' => some '"'
  | '\\' => some '\\'
  | _ => none

/-- A character before the body of a string that is read on. -/
def prepend (c : Char) : Option (List Char × List Char) → Option (List Char × List Char) :=
  Option.map fun (body, rest) => (c :: body, rest)

/-- The rest of a basic string up to its closing quote. -/
def basicBody? : Reader (List Char)
  | '"' :: rest => some ([], rest)
  | '\\' :: 'u' :: a :: b :: c :: d :: rest =>
    (charOfHex? [a, b, c, d]).bind fun x => prepend x (basicBody? rest)
  | '\\' :: 'U' :: a :: b :: c :: d :: e :: f :: g :: h :: rest =>
    (charOfHex? [a, b, c, d, e, f, g, h]).bind fun x => prepend x (basicBody? rest)
  | '\\' :: c :: rest => (escape? c).bind fun x => prepend x (basicBody? rest)
  | c :: rest => if isPlain c && c != '\\' then prepend c (basicBody? rest) else none
  | [] => none

/-- Whether nothing but blanks stands before the end of the line. -/
def endsLine (cs : List Char) : Bool := (newline? (skipSpace cs)).isSome

/-- The rest of a basic string of several lines. One or two quotes may stand before the closing ones. After a
backslash at the end of a line (`trim`), blanks and line ends up to the next character are left out. -/
def basicLines? : (trim : Bool) → Reader (List Char)
  | true, ' ' :: rest | true, '\t' :: rest | true, '\n' :: rest | true, '\r' :: '\n' :: rest => basicLines? true rest
  | _, '"' :: '"' :: '"' :: '"' :: '"' :: rest => some (['"', '"'], rest)
  | _, '"' :: '"' :: '"' :: '"' :: rest => some (['"'], rest)
  | _, '"' :: '"' :: '"' :: rest => some ([], rest)
  | _, '"' :: rest => prepend '"' (basicLines? false rest)
  | _, '\\' :: 'u' :: a :: b :: c :: d :: rest =>
    (charOfHex? [a, b, c, d]).bind fun x => prepend x (basicLines? false rest)
  | _, '\\' :: 'U' :: a :: b :: c :: d :: e :: f :: g :: h :: rest =>
    (charOfHex? [a, b, c, d, e, f, g, h]).bind fun x => prepend x (basicLines? false rest)
  | _, '\\' :: c :: rest =>
    if endsLine (c :: rest) then basicLines? true (c :: rest)
    else (escape? c).bind fun x => prepend x (basicLines? false rest)
  | _, '\r' :: '\n' :: rest | _, '\n' :: rest => prepend '\n' (basicLines? false rest)
  | _, c :: rest => if isPlain c && c != '\\' then prepend c (basicLines? false rest) else none
  | _, [] => none

/-- The rest of a literal string up to its closing quote. -/
def literalBody? : Reader (List Char)
  | '\'' :: rest => some ([], rest)
  | c :: rest => if isPlain c then prepend c (literalBody? rest) else none
  | [] => none

/-- The rest of a literal string of several lines. One or two quotes may stand before the closing ones. -/
def literalLines? : Reader (List Char)
  | '\'' :: '\'' :: '\'' :: '\'' :: '\'' :: rest => some (['\'', '\''], rest)
  | '\'' :: '\'' :: '\'' :: '\'' :: rest => some (['\''], rest)
  | '\'' :: '\'' :: '\'' :: rest => some ([], rest)
  | '\r' :: '\n' :: rest | '\n' :: rest => prepend '\n' (literalLines? rest)
  | c :: rest => if isPlain c then prepend c (literalLines? rest) else none
  | [] => none

/-- The text after the line end that may follow opening quotes. -/
def skipFirstNewline (cs : List Char) : List Char := (newline? cs).getD cs

/-- Reads a string on one line. -/
def lineString? : Reader String := fun cs =>
  let body := match cs with
    | '"' :: rest => basicBody? rest
    | '\'' :: rest => literalBody? rest
    | _ => none
  body.map fun (cs, rest) => (String.ofList cs, rest)

/-- Reads a string of any form. -/
def string? : Reader String := fun cs =>
  match cs with
  | '"' :: '"' :: '"' :: rest => do
    let (cs, rest) ← basicLines? false (skipFirstNewline rest)
    return (String.ofList cs, rest)
  | '\'' :: '\'' :: '\'' :: rest => do
    let (cs, rest) ← literalLines? (skipFirstNewline rest)
    return (String.ofList cs, rest)
  | _ => lineString? cs

end TreeQuery.Toml
