import TreeQuery.Sql.Select

/-!
# Writing selects

A select is written as a list of pieces: text, and placeholders that carry the values bound to them. A statement is
what the pieces say: the text with a question mark for each placeholder, and the values in the order of the marks.

Names are quoted, so that any name is safe; an operand that is an operator itself stands in parentheses, so that the
text never depends on precedence.
-/

namespace TreeQuery.Sql

/-- A part of a statement. -/
inductive Piece where
  | text (s : String)
  | placeholder (value : Value)

/-- What a piece adds to the text. -/
def Piece.sql : Piece → String
  | .text s => s
  | .placeholder _ => "?"

/-- The value that a piece binds. -/
def Piece.value? : Piece → Option Value
  | .text _ => none
  | .placeholder value => some value

/-- A text with every quote character doubled. -/
def doubled (quote : Char) (cs : List Char) : List Char := cs.flatMap fun c => if c = quote then [quote, quote] else [c]

/-- A name between double quotes. -/
def quotedName (name : String) : String := String.ofList ('"' :: (doubled '"' name.toList ++ ['"']))

/-- A text literal between single quotes. -/
def quotedText (s : String) : String := String.ofList ('\'' :: (doubled '\'' s.toList ++ ['\'']))

/-- Lists of pieces one after the other, with a text between them. -/
def joinPieces (separator : String) : List (List Piece) → List Piece
  | [] => []
  | [pieces] => pieces
  | pieces :: next :: rest => pieces ++ .text separator :: joinPieces separator (next :: rest)

/-- Pieces in parentheses. -/
def parenthesised (pieces : List Piece) : List Piece := .text "(" :: (pieces ++ [.text ")"])

/-- Whether an expression needs parentheses as an operand. -/
def Expr.isOperation : Expr → Bool
  | .binary .. | .isNull .. | .inList .. => true
  | _ => false

/-- The pieces of an operand. -/
def operandPieces (e : Expr) (pieces : List Piece) : List Piece :=
  if e.isOperation then parenthesised pieces else pieces

/-- The word for a direction. -/
def orderText : SortOrder → String
  | .ascending => " ASC"
  | .descending => " DESC"

/-- The parts of a window: partition terms and order terms, as far as there are any. -/
def windowPieces (partitionBy orderBy : List (List Piece)) : List Piece :=
  let partitions := if partitionBy.isEmpty then [] else [.text "PARTITION BY " :: joinPieces ", " partitionBy]
  let orders := if orderBy.isEmpty then [] else [.text "ORDER BY " :: joinPieces ", " orderBy]
  joinPieces " " (partitions ++ orders)

mutual

/-- The pieces of an expression. -/
def Expr.pieces : Expr → List Piece
  | .column table name => [.text (quotedName table ++ "." ++ quotedName name)]
  | .param value => [.placeholder value]
  | .text s => [.text (quotedText s)]
  | .int n => [.text (toString n.toInt)]
  | .call function arguments => .text function :: parenthesised (joinPieces ", " (piecesOfAll arguments))
  | .binary left operator right =>
    operandPieces left left.pieces ++ .text (" " ++ operator.text ++ " ") :: operandPieces right right.pieces
  | .isNull operand negated =>
    operandPieces operand operand.pieces ++ [.text (if negated then " IS NOT NULL" else " IS NULL")]
  | .inList operand list =>
    operandPieces operand operand.pieces ++ .text " IN " :: parenthesised (joinPieces ", " (piecesOfAll list))
  | .case condition result otherwise =>
    .text "CASE WHEN " :: (condition.pieces ++
      .text " THEN " :: (result.pieces ++ (elsePieces otherwise ++ [.text " END"])))
  | .rowNumber partitionBy orderBy =>
    .text "ROW_NUMBER() OVER " :: parenthesised (windowPieces (piecesOfAll partitionBy) (orderPieces orderBy))

/-- The pieces of each of some expressions. -/
def piecesOfAll : List Expr → List (List Piece)
  | [] => []
  | e :: rest => e.pieces :: piecesOfAll rest

/-- The pieces of the last branch of a case, if there is one. -/
def elsePieces : Option Expr → List Piece
  | none => []
  | some e => .text " ELSE " :: e.pieces

/-- The pieces of each of some order terms. -/
def orderPieces : List (Expr × SortOrder) → List (List Piece)
  | [] => []
  | (e, order) :: rest => (e.pieces ++ [.text (orderText order)]) :: orderPieces rest

end

/-- The pieces of a result column. -/
def itemPieces : Expr × Option String → List Piece
  | (e, some label) => e.pieces ++ [.text (" AS " ++ quotedName label)]
  | (e, none) => e.pieces

/-- The words for a join. -/
def joinText : JoinKind → String
  | .inner => " JOIN "
  | .outer => " LEFT OUTER JOIN "

/-- A clause, if it has any terms. -/
def clausePieces (keyword separator : String) (terms : List (List Piece)) : List Piece :=
  if terms.isEmpty then [] else .text keyword :: joinPieces separator terms

/-- Paging at the end of a select. There is no offset without a limit, so an unlimited one is written as -1. -/
def pagingText : Option UInt64 → Option UInt64 → String
  | some limit, some offset => " LIMIT " ++ toString limit.toNat ++ " OFFSET " ++ toString offset.toNat
  | some limit, none => " LIMIT " ++ toString limit.toNat
  | none, some offset => " LIMIT -1 OFFSET " ++ toString offset.toNat
  | none, none => ""

mutual

/-- The pieces of a select. -/
def Select.pieces : Select → List Piece
  | ⟨items, source, joins, conditions, groupBy, orderBy, limit, offset⟩ =>
    .text "SELECT " :: (joinPieces ", " (items.map itemPieces) ++
      .text " FROM " :: (sourcePieces source ++ (joinsPieces joins ++
        (clausePieces " WHERE " " AND " (conditions.map fun e => operandPieces e e.pieces) ++
          (clausePieces " GROUP BY " ", " (piecesOfAll groupBy) ++
            (clausePieces " ORDER BY " ", " (orderPieces orderBy) ++ [.text (pagingText limit offset)]))))))

/-- The pieces of a source. -/
def sourcePieces : Source Select → List Piece
  | .table name label => [.text (quotedName name ++ " AS " ++ quotedName label)]
  | .derived query label => parenthesised query.pieces ++ [.text (" AS " ++ quotedName label)]

/-- The pieces of some joins, one after the other. -/
def joinsPieces : List (Join Select) → List Piece
  | [] => []
  | ⟨kind, source, condition⟩ :: rest =>
    .text (joinText kind) :: (sourcePieces source ++ .text " ON " :: (condition.pieces ++ joinsPieces rest))

end

/-- A statement: its text with a question mark for each parameter, and the parameters in order. -/
structure Statement where
  sql : String
  params : List Value

/-- The statement that some pieces make. -/
def Statement.ofPieces (pieces : List Piece) : Statement :=
  ⟨String.join (pieces.map Piece.sql), pieces.filterMap Piece.value?⟩

/-- A statement with its parameters, as messages show it. -/
def Statement.text (s : Statement) : String :=
  if s.params.isEmpty then s.sql
  else s.sql ++ " -- params: [" ++ ", ".intercalate (s.params.map Value.text) ++ "]"

/-- The statement of a select. -/
def Select.statement (s : Select) : Statement := .ofPieces s.pieces

/-- The statement of an expression by itself. -/
def Expr.statement (e : Expr) : Statement := .ofPieces e.pieces

end TreeQuery.Sql
