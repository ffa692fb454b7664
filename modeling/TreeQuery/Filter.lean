import TreeQuery.FieldPath
import TreeQuery.Operator
import TreeQuery.Value

/-!
# Filters

A condition on a field. Lists of filters grow without repeating a filter (`addFilter`).
-/

namespace TreeQuery

/-- A condition: the value of a field stands in a relation to an operand. -/
structure Filter where
  path : FieldPath
  operator : Operator
  value : Value

namespace Filter

/-- Whether two filters have equal paths, operators and values. -/
def same (f g : Filter) : Bool := f.path == g.path && f.operator == g.operator && f.value.same g.value

/-- A filter as query text; an operator that is a word has spaces around it. -/
def text (f : Filter) : String :=
  if f.operator.isWord then f.path.text ++ " " ++ f.operator.spelling ++ " " ++ f.value.text
  else f.path.text ++ f.operator.spelling ++ f.value.text

theorem same_comm (f g : Filter) : f.same g = g.same f := by
  simp only [same, Bool.beq_comm (a := f.path), Bool.beq_comm (a := f.operator), Value.same_comm f.value]

end Filter

/-- A list of filters with one more at its end, unless the same one is there. -/
def addFilter (filters : List Filter) (f : Filter) : List Filter :=
  if filters.any f.same then filters else filters ++ [f]

end TreeQuery
