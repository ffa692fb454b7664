import TreeQuery.SyntaxTree
import TreeQuery.Token.Lexer

/-!
# Reading syntax trees

A query is read one token at a time. The state after some tokens says which token may come next and holds the tree
as far as it has been read; a token that may not come next, or an end that comes too early, is reported where it
stands. `State.step` is the move on one token, `advance` the way through many, and `conclude` the answer at the end.
-/

namespace TreeQuery.SyntaxTree

/-- A level whose field list is being read: the fields so far. -/
abbrev OpenFields := List (FieldEntry SyntaxTree)

/-- A level that is interrupted by the level of a relation: its fields so far, and the relation's name. -/
structure Enclosing where
  fields : OpenFields
  relation : String

/-- The levels around the one being read, the innermost first. -/
abbrev Outer := List Enclosing

/-- A filter of which the path is being read. -/
structure OpenFilter where
  outer : Outer
  level : SyntaxTree
  path : List String

/-- What has been read. `outer` holds the interrupted levels and `level` the one whose modifiers follow. -/
inductive State where
  | start
  /-- After the name of the parameter. -/
  | equals
  /-- Before the field list of the root. -/
  | root
  /-- Before a field. -/
  | field (outer : Outer) (fields : OpenFields)
  /-- After an exclamation mark. -/
  | excluded (outer : Outer) (fields : OpenFields)
  /-- After a name, which may turn out to name a relation. -/
  | named (outer : Outer) (fields : OpenFields) (name : String)
  /-- After an entry of a field list that is complete. -/
  | listed (outer : Outer) (fields : OpenFields)
  /-- After a field list, or after a modifier. -/
  | closed (outer : Outer) (level : SyntaxTree)
  /-- After the dot before a modifier. -/
  | modifier (outer : Outer) (level : SyntaxTree)
  | filterOpen (outer : Outer) (level : SyntaxTree)
  | filterField (outer : Outer) (level : SyntaxTree)
  /-- After a segment of a path. -/
  | filterPath (filter : OpenFilter)
  /-- After a dot of a path. -/
  | filterSegment (filter : OpenFilter)
  | filterValue (filter : OpenFilter) (operator : Operator)
  /-- Before an item of a list. -/
  | filterItem (filter : OpenFilter) (operator : Operator) (items : List Value)
  /-- After an item of a list. -/
  | filterItems (filter : OpenFilter) (operator : Operator) (items : List Value)
  | filterClose (filter : OpenFilter) (operator : Operator) (value : Value)
  | orderOpen (outer : Outer) (level : SyntaxTree)
  | orderField (outer : Outer) (level : SyntaxTree)
  | orderComma (outer : Outer) (level : SyntaxTree) (field : String)
  | orderDirection (outer : Outer) (level : SyntaxTree) (field : String)
  | orderClose (outer : Outer) (level : SyntaxTree) (field : String) (order : SortOrder)
  | countOpen (what : Paging) (outer : Outer) (level : SyntaxTree)
  | count (what : Paging) (outer : Outer) (level : SyntaxTree)
  | countClose (what : Paging) (outer : Outer) (level : SyntaxTree) (count : UInt64)

/-- The level with one more modifier. -/
def addModifier (level : SyntaxTree) (m : Modifier) : SyntaxTree := { level with modifiers := level.modifiers ++ [m] }

/-- The modifier that sets a count. -/
def countModifier : Paging → UInt64 → Modifier
  | .limit, n => .limit n
  | .offset, n => .offset n

/-- The value that a token stands for by itself. -/
def scalar? : Token → Option Value
  | .int n => some (.int n)
  | .float x => some (.float x)
  | .date d => some (.date d)
  | .string s => some (.string s)
  | .ident _ | .comparison _ | .symbol _ => none

/-- The operator that a token stands for. -/
def operator? : Token → Option Operator
  | .comparison c => some (.compare c)
  | .ident word => Operator.ofKeyword? word
  | _ => none

/-- The count that a token stands for. -/
def count? : Token → Option UInt64
  | .int n => if 0 ≤ n then some n.toUInt64 else none
  | _ => none

/-- The direction that a token stands for. -/
def sortOrder? : Token → Option SortOrder
  | .ident word => SortOrder.ofKeyword? word
  | _ => none

namespace State

/-- Why a token that may not come next, or the end, is refused. -/
def fault : State → GrammarFault
  | start => .expected .query
  | equals => .expected .equals
  | root => .expected (.symbol .openParen)
  | field .. => .expected .field
  | excluded .. => .expected .excludedField
  | named .. | listed .. => .expected (.symbol .closeParen)
  | closed [] _ => .expected .endOfInput
  | closed (_ :: _) _ => .expected (.symbol .closeParen)
  | modifier .. => .expected .modifier
  | filterOpen .. => .expected (.symbol .openParen)
  | filterField .. => .expected .filterField
  | filterPath _ => .expected .operator
  | filterSegment filter => if maxDepth < filter.path.length then .pathTooLong else .expected .pathSegment
  | filterValue .. => .expected .operand
  | filterItem .. => .expected .listItem
  | filterItems .. => .expected (.symbol .closeBracket)
  | filterClose .. => .expected (.symbol .closeParen)
  | orderOpen .. => .expected (.symbol .openParen)
  | orderField .. => .expected .sortField
  | orderComma .. => .expected (.symbol .comma)
  | orderDirection .. => .expected .sortOrder
  | orderClose .. => .expected (.symbol .closeParen)
  | countOpen .. => .expected (.symbol .openParen)
  | count what .. => .expected (.count what)
  | countClose .. => .expected (.symbol .closeParen)

/-- The move after a complete entry of a field list. -/
def afterEntry (outer : Outer) (fields : OpenFields) : Token → Except GrammarFault State
  | .symbol .comma => .ok (field outer fields)
  | .symbol .closeParen => .ok (closed outer ⟨fields, []⟩)
  | _ => .error (.expected (.symbol .closeParen))

/-- The move after a complete level: a dot goes on with a modifier, and anything else belongs to the level around. -/
def afterLevel (outer : Outer) (level : SyntaxTree) : Token → Except GrammarFault State
  | .symbol .dot => .ok (modifier outer level)
  | token =>
    match outer with
    | [] => .error (.expected .endOfInput)
    | ⟨fields, relation⟩ :: outer => afterEntry outer (fields ++ [.relation relation level]) token

/-- The move after the name of a modifier. -/
def afterKeyword? (outer : Outer) (level : SyntaxTree) (word : String) : Option State :=
  if word = "filter" then some (filterOpen outer level)
  else if word = "order" then some (orderOpen outer level)
  else if word = "limit" then some (countOpen .limit outer level)
  else if word = "offset" then some (countOpen .offset outer level)
  else none

/-- The move on one token. -/
def step (s : State) (token : Token) : Except GrammarFault State :=
  match s, token with
  | start, .ident word => if word = "q" then .ok equals else .error s.fault
  | equals, .comparison .equal => .ok root
  | root, .symbol .openParen => .ok (field [] [])
  | field outer fields, .ident name => .ok (named outer fields name)
  | field outer fields, .symbol .star => .ok (listed outer (fields ++ [.wildcard]))
  | field outer fields, .symbol .bang => .ok (excluded outer fields)
  | excluded outer fields, .ident name => .ok (listed outer (fields ++ [.excluded name]))
  | named outer fields name, .symbol .openParen =>
    if maxDepth ≤ outer.length then .error .nestedTooDeep else .ok (field (⟨fields, name⟩ :: outer) [])
  | named outer fields name, token => afterEntry outer (fields ++ [.name name]) token
  | listed outer fields, token => afterEntry outer fields token
  | closed outer level, token => afterLevel outer level token
  | modifier outer level, .ident word =>
    match afterKeyword? outer level word with
    | some next => .ok next
    | none => .error s.fault
  | filterOpen outer level, .symbol .openParen => .ok (filterField outer level)
  | filterField outer level, .ident name => .ok (filterPath ⟨outer, level, [name]⟩)
  | filterPath filter, .symbol .dot => .ok (filterSegment filter)
  | filterPath filter, token =>
    match operator? token with
    | some op => .ok (filterValue filter op)
    | none => .error s.fault
  | filterSegment filter, .ident name =>
    if maxDepth < filter.path.length then .error .pathTooLong
    else .ok (filterPath { filter with path := filter.path ++ [name] })
  | filterValue filter op, .symbol .openBracket => .ok (filterItem filter op [])
  | filterValue filter op, token =>
    match scalar? token with
    | some value => .ok (filterClose filter op value)
    | none => .error s.fault
  | filterItem filter op items, token =>
    match scalar? token with
    | some value => .ok (filterItems filter op (items ++ [value]))
    | none => .error s.fault
  | filterItems filter op items, .symbol .comma => .ok (filterItem filter op items)
  | filterItems filter op items, .symbol .closeBracket => .ok (filterClose filter op (.list items))
  | filterClose ⟨outer, level, path⟩ op value, .symbol .closeParen =>
    .ok (closed outer (addModifier level (.filter path op value)))
  | orderOpen outer level, .symbol .openParen => .ok (orderField outer level)
  | orderField outer level, .ident name => .ok (orderComma outer level name)
  | orderComma outer level name, .symbol .comma => .ok (orderDirection outer level name)
  | orderDirection outer level name, token =>
    match sortOrder? token with
    | some order => .ok (orderClose outer level name order)
    | none => .error s.fault
  | orderClose outer level name order, .symbol .closeParen => .ok (closed outer (addModifier level (.order name order)))
  | countOpen what outer level, .symbol .openParen => .ok (count what outer level)
  | count what outer level, token =>
    match count? token with
    | some n => .ok (countClose what outer level n)
    | none => .error s.fault
  | countClose what outer level n, .symbol .closeParen => .ok (closed outer (addModifier level (countModifier what n)))
  | s, _ => .error s.fault

/-- The answer at the end: a query ends after the root level. -/
def finish : State → Except GrammarFault SyntaxTree
  | closed [] level => .ok level
  | s => .error s.fault

end State

/-- The state after further tokens. -/
def advance : State → List Lexeme → Except Error State
  | s, [] => .ok s
  | s, lexeme :: rest =>
    match s.step lexeme.token with
    | .ok next => advance next rest
    | .error fault => .error (.malformed lexeme.start (.grammar fault (some lexeme.token)))

/-- The tree read when a text of `size` bytes ends. -/
def conclude (size : Nat) (s : State) : Except Error SyntaxTree :=
  match s.finish with
  | .ok tree => .ok tree
  | .error fault => .error (.malformed size (.grammar fault none))

/-- The syntax tree that the tokens of a text of `size` bytes make. -/
def ofLexemes (size : Nat) (lexemes : List Lexeme) : Except Error SyntaxTree :=
  (advance .start lexemes).bind (conclude size)

/-- The syntax tree of a query. -/
def ofText (text : String) : Except Error SyntaxTree :=
  (Token.tokenize text).bind (ofLexemes text.utf8ByteSize)

end TreeQuery.SyntaxTree
