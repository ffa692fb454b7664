import TreeQuery.Sql.Select

/-!
# What a select is made of

The expressions in a select, the selects in it, and the aliases that it introduces, each in the order in which they
are written. `Select.parts` goes into the derived tables; `Select.exprs` does not.
-/

namespace TreeQuery.Sql

mutual

/-- An expression and the expressions in it. -/
def Expr.parts : Expr → List Expr
  | .column table name => [.column table name]
  | .param value => [.param value]
  | .text s => [.text s]
  | .int n => [.int n]
  | .call function arguments => .call function arguments :: partsOfAll arguments
  | .binary left operator right => .binary left operator right :: (left.parts ++ right.parts)
  | .isNull operand negated => .isNull operand negated :: operand.parts
  | .inList operand list => .inList operand list :: (operand.parts ++ partsOfAll list)
  | .case condition result otherwise =>
    .case condition result otherwise :: (condition.parts ++ (result.parts ++ elseParts otherwise))
  | .rowNumber partitionBy orderBy =>
    .rowNumber partitionBy orderBy :: (partsOfAll partitionBy ++ orderParts orderBy)

/-- Some expressions and the expressions in them. -/
def partsOfAll : List Expr → List Expr
  | [] => []
  | e :: rest => e.parts ++ partsOfAll rest

/-- The expressions of the last branch of a case. -/
def elseParts : Option Expr → List Expr
  | none => []
  | some e => e.parts

/-- The expressions of some order terms. -/
def orderParts : List (Expr × SortOrder) → List Expr
  | [] => []
  | (e, _) :: rest => e.parts ++ orderParts rest

end

mutual

/-- All expressions of a select, those of its derived tables included. -/
def Select.parts : Select → List Expr
  | ⟨items, source, joins, conditions, groupBy, orderBy, _, _⟩ =>
    partsOfAll (items.map Prod.fst) ++ (sourceParts source ++ (joinsParts joins ++
      (partsOfAll conditions ++ (partsOfAll groupBy ++ orderParts orderBy))))

/-- The expressions of a source. -/
def sourceParts : Source Select → List Expr
  | .table _ _ => []
  | .derived query _ => query.parts

/-- The expressions of some joins. -/
def joinsParts : List (Join Select) → List Expr
  | [] => []
  | ⟨_, source, condition⟩ :: rest => sourceParts source ++ (condition.parts ++ joinsParts rest)

end

theorem partsOfAll_eq_flatMap : ∀ es : List Expr, partsOfAll es = es.flatMap Expr.parts
  | [] => rfl
  | e :: rest => by rw [partsOfAll, partsOfAll_eq_flatMap rest, List.flatMap_cons]

theorem orderParts_eq_flatMap : ∀ terms : List (Expr × SortOrder), orderParts terms = terms.flatMap fun t => t.1.parts
  | [] => rfl
  | (e, _) :: rest => by rw [orderParts, orderParts_eq_flatMap rest, List.flatMap_cons]

theorem mem_partsOfAll {part : Expr} {es : List Expr} : part ∈ partsOfAll es ↔ ∃ e ∈ es, part ∈ e.parts := by
  rw [partsOfAll_eq_flatMap, List.mem_flatMap]

/-- The value that an expression binds. -/
def Expr.value? : Expr → Option Value
  | .param value => some value
  | _ => none

/-- The alias and the name of a column. -/
def Expr.column? : Expr → Option (String × String)
  | .column table name => some (table, name)
  | _ => none

/-! ## Selects in a select -/

mutual

/-- A select and the selects in it. -/
def Select.nested : Select → List Select
  | ⟨items, source, joins, conditions, groupBy, orderBy, limit, offset⟩ =>
    ⟨items, source, joins, conditions, groupBy, orderBy, limit, offset⟩ :: (sourceNested source ++ joinsNested joins)

/-- The selects in a source. -/
def sourceNested : Source Select → List Select
  | .table _ _ => []
  | .derived query _ => query.nested

/-- The selects in some joins. -/
def joinsNested : List (Join Select) → List Select
  | [] => []
  | ⟨_, source, _⟩ :: rest => sourceNested source ++ joinsNested rest

end

mutual

/-- The aliases that a select introduces, those of its derived tables included. -/
def Select.labels : Select → List String
  | ⟨_, source, joins, _, _, _, _, _⟩ => sourceLabels source ++ joinsLabels joins

/-- The aliases that a source introduces. -/
def sourceLabels : Source Select → List String
  | .table _ label => [label]
  | .derived query label => query.labels ++ [label]

/-- The aliases that some joins introduce. -/
def joinsLabels : List (Join Select) → List String
  | [] => []
  | ⟨_, source, _⟩ :: rest => sourceLabels source ++ joinsLabels rest

end

theorem Select.nested_eq : ∀ s : Select, s.nested = s :: (sourceNested s.source ++ joinsNested s.joins)
  | ⟨_, _, _, _, _, _, _, _⟩ => rfl

theorem Select.nested_of_derived {s inner : Select} {label : String} (hsource : s.source = .derived inner label)
    (hjoins : s.joins = []) : s.nested = s :: inner.nested := by
  rw [Select.nested_eq, hsource, hjoins, sourceNested, joinsNested, List.append_nil]

theorem Select.labels_eq : ∀ s : Select, s.labels = sourceLabels s.source ++ joinsLabels s.joins
  | ⟨_, _, _, _, _, _, _, _⟩ => rfl

theorem mem_joinsNested {q : Select} : ∀ {joins : List (Join Select)},
    q ∈ joinsNested joins ↔ ∃ j ∈ joins, q ∈ sourceNested j.source
  | [] => ⟨nofun, nofun⟩
  | ⟨_, _, _⟩ :: rest => by
    rw [joinsNested, List.mem_append, @mem_joinsNested q rest]
    simp only [List.mem_cons, exists_eq_or_imp]

/-- The expressions that stand in a select itself. -/
def Select.exprs (s : Select) : List Expr :=
  s.items.map Prod.fst ++ (s.joins.map Join.condition ++ (s.conditions ++ (s.groupBy ++ s.orderBy.map Prod.fst)))

/-- What a select selects from. -/
def Select.sources (s : Select) : List (Source Select) := s.source :: s.joins.map Join.source

end TreeQuery.Sql
