import Mathlib.Data.List.Basic
import TreeQuery.Proofs.Sql.Parts

/-!
# Scopes of selects

A select is well scoped if it introduces no alias twice, and if in it and in all its derived tables every column is
one that the sources of its own select offer (`Select.WellScoped`).
-/

namespace TreeQuery.Sql

/-- Whether a select shows a column with a name. -/
def Select.Offers (s : Select) (name : String) : Prop := ∃ item ∈ s.items, item.2 = some name

/-- Whether a source has a column with a name; nothing is known of the columns of a table. -/
def Source.Offers : Source Select → String → Prop
  | .table _ _, _ => True
  | .derived query _, name => query.Offers name

/-- Whether a column, given by an alias and a name, is one of some sources. -/
def Resolves (sources : List (Source Select)) (column : String × String) : Prop :=
  ∃ source ∈ sources, source.label = column.1 ∧ source.Offers column.2

/-- The columns in an expression. -/
def Expr.columns (e : Expr) : List (String × String) := e.parts.filterMap Expr.column?

/-- The columns that stand in a select itself. -/
def Select.columns (s : Select) : List (String × String) := s.exprs.flatMap Expr.columns

/-- A select that shows something and whose own columns are those of its sources. -/
structure Select.Resolved (s : Select) : Prop where
  shows : s.items ≠ []
  columns : ∀ column ∈ s.columns, Resolves s.sources column

/-- A select in which no alias is introduced twice and every select is resolved. -/
structure Select.WellScoped (s : Select) : Prop where
  distinct : s.labels.Nodup
  resolved : ∀ q ∈ s.nested, q.Resolved

/-! ## Columns in expressions -/

theorem columns_call (function : String) (arguments : List Expr) :
    (Expr.call function arguments).columns = arguments.flatMap Expr.columns := by
  show (partsOfAll arguments).filterMap Expr.column? = _
  rw [partsOfAll_eq_flatMap]
  exact List.filterMap_flatMap

theorem columns_rowNumber (partitionBy : List Expr) (orderBy : List (Expr × SortOrder)) :
    (Expr.rowNumber partitionBy orderBy).columns = (partitionBy ++ orderBy.map Prod.fst).flatMap Expr.columns := by
  show (partsOfAll partitionBy ++ orderParts orderBy).filterMap Expr.column? = _
  rw [partsOfAll_eq_flatMap, orderParts_eq_flatMap, List.flatMap_append, List.flatMap_map, List.filterMap_append]
  exact congrArg₂ (· ++ ·) List.filterMap_flatMap List.filterMap_flatMap

theorem columns_params : ∀ values : List Value, (partsOfAll (values.map .param)).filterMap Expr.column? = []
  | [] => rfl
  | _ :: rest => columns_params rest

theorem columns_column {x : Expr} {table name : String} {column : String × String} (hx : x = .column table name)
    (h : column ∈ x.columns) : column.1 = table := by
  subst hx
  rw [List.mem_singleton.1 h]

theorem Resolves.mono {as bs : List (Source Select)} {column : String × String} (h : Resolves as column)
    (hsub : ∀ source ∈ as, source ∈ bs) : Resolves bs column := by
  obtain ⟨source, hsource, hcolumn⟩ := h
  exact ⟨source, hsub source hsource, hcolumn⟩

end TreeQuery.Sql
