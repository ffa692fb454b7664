/-!
# Kinds of joins

What becomes of a row that has no partner in the table joined to it.
-/

namespace TreeQuery

/-- How a derived table is joined. -/
inductive JoinKind where
  /-- Rows without a partner are dropped. -/
  | inner
  /-- Rows without a partner are kept. -/
  | outer
  deriving DecidableEq, Repr

end TreeQuery
