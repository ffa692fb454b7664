import TreeQuery.JoinKind
import TreeQuery.Value
import TreeQuery.Operator

/-!
# Selects

As much of SQL as it takes to write a query whose only cell is a JSON document.
-/

namespace TreeQuery.Sql

/-- An operator between two operands. -/
inductive BinaryOperator where
  | compare (c : Comparison)
  | like
  | concat
  deriving DecidableEq, Repr

/-- How an operator is written. -/
def BinaryOperator.text : BinaryOperator → String
  | .compare c => c.symbol
  | .like => "LIKE"
  | .concat => "||"

/-- A scalar expression. -/
inductive Expr where
  /-- A column of a table or derived table, by the alias of the table. -/
  | column (table name : String)
  /-- A value that is bound when the statement is run. -/
  | param (value : Value)
  | text (s : String)
  | int (n : Int64)
  | call (function : String) (arguments : List Expr)
  | binary (left : Expr) (operator : BinaryOperator) (right : Expr)
  | isNull (operand : Expr) (negated : Bool)
  | inList (operand : Expr) (list : List Expr)
  | case (condition result : Expr) (otherwise : Option Expr)
  /-- The number of a row among those with equal partition terms, in the given order. -/
  | rowNumber (partitionBy : List Expr) (orderBy : List (Expr × SortOrder))

/-- Something to select from. -/
inductive Source (Query : Type) where
  | table (name label : String)
  | derived (query : Query) (label : String)

/-- The alias by which the columns of a source are named. -/
def Source.label {Query : Type} : Source Query → String
  | .table _ label | .derived _ label => label

/-- A source joined to the ones before it. -/
structure Join (Query : Type) where
  kind : JoinKind
  source : Source Query
  condition : Expr

/-- A select. Conditions are all required; an absent limit or offset is not written. -/
structure Select where
  items : List (Expr × Option String)
  source : Source Select
  joins : List (Join Select)
  conditions : List Expr
  groupBy : List Expr
  orderBy : List (Expr × SortOrder)
  limit : Option UInt64
  offset : Option UInt64

/-- The select from one source with nothing asked for. -/
def Select.ofSource (source : Source Select) : Select := ⟨[], source, [], [], [], [], none, none⟩

end TreeQuery.Sql
