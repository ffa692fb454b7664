/-!
# Operators and orders

The operators of filters and the directions of sorting, with their spellings in query text. Every spelling is read
back as what it spells (`ofSymbol?_spelling`, `ofKeyword?_spelling`, `ofKeyword?_keyword`).
-/

namespace TreeQuery

/-- The comparisons, which query text writes as symbols. -/
inductive Comparison where
  | equal
  | notEqual
  | greater
  | greaterOrEqual
  | less
  | lessOrEqual
  deriving DecidableEq, Repr

namespace Comparison

/-- How a comparison is written, in query text and in SQL. -/
def symbol : Comparison → String
  | .equal => "="
  | .notEqual => "!="
  | .greater => ">"
  | .greaterOrEqual => ">="
  | .less => "<"
  | .lessOrEqual => "<="

/-- Whether a comparison asks for an order, and not for equality alone. -/
def isOrdering : Comparison → Bool
  | .equal | .notEqual => false
  | .greater | .greaterOrEqual | .less | .lessOrEqual => true

end Comparison

/-- The operator of a filter. -/
inductive Operator where
  | compare (c : Comparison)
  /-- Membership in a list. -/
  | oneOf
  /-- Absence of a value; the operand is a flag. -/
  | isNull
  | like
  /-- Like, without regard to case. -/
  | ilike
  deriving DecidableEq, Repr

namespace Operator

/-- How an operator is written in query text. -/
def spelling : Operator → String
  | .compare c => c.symbol
  | .oneOf => "in"
  | .isNull => "is_null"
  | .like => "like"
  | .ilike => "ilike"

/-- Whether an operator is written as a word. -/
def isWord : Operator → Bool
  | .compare _ => false
  | .oneOf | .isNull | .like | .ilike => true

/-- Whether an operator compares by order. -/
def isOrdering : Operator → Bool
  | .compare c => c.isOrdering
  | .oneOf | .isNull | .like | .ilike => false

/-- Whether an operator matches a pattern. -/
def isPattern : Operator → Bool
  | .like | .ilike => true
  | .compare _ | .oneOf | .isNull => false

/-- The operator that a word stands for. -/
def ofKeyword? (word : String) : Option Operator :=
  if word = "in" then some .oneOf
  else if word = "is_null" then some .isNull
  else if word = "like" then some .like
  else if word = "ilike" then some .ilike
  else none

/-- The operator that a symbol stands for. -/
def ofSymbol? (symbol : String) : Option Operator :=
  if symbol = "=" then some (.compare .equal)
  else if symbol = "!=" then some (.compare .notEqual)
  else if symbol = ">" then some (.compare .greater)
  else if symbol = ">=" then some (.compare .greaterOrEqual)
  else if symbol = "<" then some (.compare .less)
  else if symbol = "<=" then some (.compare .lessOrEqual)
  else none

theorem ofKeyword?_spelling {op : Operator} (h : op.isWord = true) : ofKeyword? op.spelling = some op := by
  cases op with
  | compare c => cases h
  | _ => rfl

theorem ofSymbol?_spelling {op : Operator} (h : op.isWord = false) : ofSymbol? op.spelling = some op := by
  cases op with
  | compare c => cases c <;> rfl
  | _ => cases h

end Operator

/-- The direction of sorting. -/
inductive SortOrder where
  | ascending
  | descending
  deriving DecidableEq, Repr

namespace SortOrder

/-- How a direction is written in query text. -/
def keyword : SortOrder → String
  | .ascending => "asc"
  | .descending => "desc"

/-- The direction that a word stands for. -/
def ofKeyword? (word : String) : Option SortOrder :=
  if word = "asc" then some .ascending else if word = "desc" then some .descending else none

theorem ofKeyword?_keyword (o : SortOrder) : ofKeyword? o.keyword = some o := by cases o <;> rfl

end SortOrder

end TreeQuery
