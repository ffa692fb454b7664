import TreeQuery.Error
import TreeQuery.Text.Blank
import TreeQuery.Text.Split

/-!
# Join conditions

Schemas say how a relationship joins its two tables by an equation of two columns, such as `todo.id = step.todo_id`.
Either table may stand first; where both are the same table, the left column is the parent's.
-/

namespace TreeQuery

/-- A column with the table that it belongs to. -/
structure TableColumn where
  table : String
  column : String
  deriving DecidableEq, Repr

/-- The column that a side of an equation names: a table and a column with a point between them. -/
def TableColumn.ofChars (side : List Char) : Except JoinFault TableColumn :=
  match Text.splitFirst? '.' side with
  | some (table, column) =>
    if table.isEmpty || column.isEmpty then .error (.notAColumn (String.ofList side))
    else .ok ⟨String.ofList (Text.trim table), String.ofList (Text.trim column)⟩
  | none => .error (.notAColumn (String.ofList side))

/-- An equation of two columns. -/
structure JoinCondition where
  left : TableColumn
  right : TableColumn
  deriving DecidableEq, Repr

namespace JoinCondition

/-- The equation that a text writes. -/
def ofText (text : String) : Except JoinFault JoinCondition :=
  match Text.splitFirst? '=' text.toList with
  | some (left, right) => do
    return ⟨← TableColumn.ofChars (Text.trim left), ← TableColumn.ofChars (Text.trim right)⟩
  | none => .error (.notAnEquation text)

/-- The column of the parent's table and that of the target's, if the equation is between these two. -/
def columns? (c : JoinCondition) (parent target : String) : Option (String × String) :=
  if c.left.table = parent ∧ c.right.table = target then some (c.left.column, c.right.column)
  else if c.right.table = parent ∧ c.left.table = target then some (c.right.column, c.left.column)
  else none

end JoinCondition

/-- The column of the parent's table and that of the target's, as a condition equates them. -/
def joinColumns (condition parent target : String) : Except JoinFault (String × String) := do
  match (← JoinCondition.ofText condition).columns? parent target with
  | some columns => return columns
  | none => throw (.otherTables condition parent target)

end TreeQuery
