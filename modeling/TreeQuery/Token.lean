import TreeQuery.Operator
import TreeQuery.Value

/-!
# Tokens

The words of query text, and tokens with the bytes that they take there.
-/

namespace TreeQuery

/-- Punctuation. -/
inductive Symbol where
  | openParen
  | closeParen
  | openBracket
  | closeBracket
  | comma
  | dot
  | bang
  | star
  deriving DecidableEq, Repr

/-- The character of a symbol. -/
def Symbol.char : Symbol → Char
  | .openParen => '('
  | .closeParen => ')'
  | .openBracket => '['
  | .closeBracket => ']'
  | .comma => ','
  | .dot => '.'
  | .bang => '!'
  | .star => '*'

/-- The symbol with a character. -/
def Symbol.ofChar? : Char → Option Symbol
  | '(' => some .openParen
  | ')' => some .closeParen
  | '[' => some .openBracket
  | ']' => some .closeBracket
  | ',' => some .comma
  | '.' => some .dot
  | '!' => some .bang
  | '*' => some .star
  | _ => none

theorem Symbol.ofChar?_char (s : Symbol) : ofChar? s.char = some s := by cases s <;> rfl

/-- A word of query text. -/
inductive Token where
  /-- A name: a letter or an underscore, then letters, digits and underscores, all of ASCII. -/
  | ident (name : String)
  | int (n : Int64)
  | float (x : Binary64)
  | date (d : Date)
  /-- Quoted text, without its quotes and escapes. -/
  | string (s : String)
  | comparison (c : Comparison)
  | symbol (s : Symbol)
  deriving DecidableEq

/-- How messages name a token. -/
def Token.description : Token → String
  | .ident name => "'" ++ name ++ "'"
  | .int n => "number " ++ toString n.toInt
  | .float x => "number " ++ x.text
  | .date d => "date " ++ d.text
  | .string s => "string " ++ Text.quoted s
  | .comparison c => "'" ++ c.symbol ++ "'"
  | .symbol s => "'" ++ s.char.toString ++ "'"

/-- A token and where it stands: it takes the bytes from `start` up to, and not including, `stop`. -/
structure Lexeme where
  token : Token
  start : Nat
  stop : Nat

end TreeQuery
