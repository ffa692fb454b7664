import TreeQuery.ActionTree

/-!
# Filters at their destination

A dotted filter is written at one level and speaks of another. In a routed tree every condition stands at the level
whose field it tests, and every relation that a filter went through is marked as restricting: only rows with a
matching partner are kept. Levels that no one selected are made on the way.

A level is routed after the levels inside it, so that a condition placed from further up comes after those that were
written nearer.
-/

namespace TreeQuery

/-- A condition on a field of the level it stands at. -/
structure Condition where
  field : String
  operator : Operator
  value : Value

namespace Condition

/-- Whether two conditions have equal fields, operators and values. -/
def same (c d : Condition) : Bool := c.field == d.field && c.operator == d.operator && c.value.same d.value

end Condition

/-- The condition of a filter, as seen from the level that its path reaches. -/
def Filter.condition (f : Filter) : Condition := ⟨f.path.field, f.operator, f.value⟩

/-- A list of conditions with one more at its end, unless the same one is there. -/
def addCondition (conditions : List Condition) (c : Condition) : List Condition :=
  if conditions.any c.same then conditions else conditions ++ [c]

/-- A level reached through a relation, and whether a filter went through the relation. -/
structure Branch (Level : Type) where
  label : String
  restricts : Bool
  level : Level

/-- A level with the conditions that speak of its own fields. -/
structure RoutedTree where
  select : Selection
  conditions : List Condition
  sort : Option Sorting
  limit : Option UInt64
  offset : Option UInt64
  branches : List (Branch RoutedTree)

namespace RoutedTree

/-- A level that no one selected. -/
def unselected : RoutedTree := ⟨.unselected, [], none, none, none, []⟩

/-- The branches with `f` applied to the level behind a relation, and the relation marked as restricting. -/
def restrict (label : String) (f : RoutedTree → RoutedTree) : List (Branch RoutedTree) → List (Branch RoutedTree)
  | [] => [⟨label, true, f unselected⟩]
  | b :: rest => if b.label = label then ⟨b.label, true, f b.level⟩ :: rest else b :: restrict label f rest

/-- The tree with a condition placed at the level that a path of relations leads to. -/
def place (c : Condition) : List String → RoutedTree → RoutedTree
  | [], t => { t with conditions := addCondition t.conditions c }
  | head :: via, t => { t with branches := restrict head (place c via) t.branches }

/-- The tree with the dotted ones of some filters placed in order. -/
def placeAll (t : RoutedTree) (filters : List Filter) : RoutedTree :=
  filters.foldl (fun t f => if f.path.isDotted then t.place f.condition f.path.via else t) t

end RoutedTree

/-- The conditions of the filters that are not dotted. -/
def plainConditions (filters : List Filter) : List Condition :=
  (filters.filter fun f => !f.path.isDotted).map Filter.condition

namespace ActionTree

mutual

/-- The tree with every filter at its destination. -/
def route : ActionTree → RoutedTree
  | ⟨_, select, filters, sort, limit, offset, relations⟩ =>
    RoutedTree.placeAll ⟨select, plainConditions filters, sort, limit, offset, routeRelations relations⟩ filters

/-- The levels of relations with their filters at their destination; no filter has gone through a relation yet. -/
def routeRelations : List (String × ActionTree) → List (Branch RoutedTree)
  | [] => []
  | (label, child) :: rest => ⟨label, false, route child⟩ :: routeRelations rest

end

end ActionTree

end TreeQuery
