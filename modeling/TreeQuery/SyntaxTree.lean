import TreeQuery.Operator
import TreeQuery.Value

/-!
# Syntax trees

A query as it is written: for each level the fields in their parentheses, then the modifiers after them. Nothing is
merged or resolved yet.
-/

namespace TreeQuery

/-- What is written after a field list, with a dot before it. -/
inductive Modifier where
  /-- A condition on the field at the end of a path. -/
  | filter (path : List String) (operator : Operator) (value : Value)
  | order (field : String) (order : SortOrder)
  | limit (count : UInt64)
  | offset (count : UInt64)

/-- One entry of a field list, where relations hold a level of their own. -/
inductive FieldEntry (Level : Type) where
  | name (label : String)
  /-- A field left out of all fields. -/
  | excluded (label : String)
  /-- All fields. -/
  | wildcard
  | relation (label : String) (level : Level)

/-- One level of a query, and the levels inside it. -/
structure SyntaxTree where
  fields : List (FieldEntry SyntaxTree)
  modifiers : List Modifier

end TreeQuery
