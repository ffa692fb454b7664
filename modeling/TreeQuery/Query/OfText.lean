import TreeQuery.ActionTree.Build
import TreeQuery.Query
import TreeQuery.Sql.Statement
import TreeQuery.Text.Percent
import TreeQuery.Validation

/-!
# From text to statement

The whole way of a query: its entity is looked up, its text is read, the tree is checked, and the plan is compiled.
-/

namespace TreeQuery

/-- The text that a percent-encoded query string stands for. -/
def Query.decodedText (raw : String) : Except Error String :=
  match Text.percentDecode raw with
  | .ok text => .ok text
  | .error fault => .error (.malformed 0 (.notUtf8 fault))

/-- The query that a text asks of an entity. -/
def Query.ofText (r : Registry) (entity text : String) : Except Error Query := do
  let e ← r.require entity
  let tree ← ActionTree.ofText text
  validate r e tree
  tree.compile r e

/-- The statement of a query. -/
def Query.statement (q : Query) : Sql.Statement := q.select.statement

end TreeQuery
