import TreeQuery.Filter
import TreeQuery.Keyed

/-!
# Action trees

What a query asks for: one node for each level of entities, with what is selected, filtered, sorted and paged there,
and the levels that its relations lead to. Nothing is said about the schema yet.
-/

namespace TreeQuery

/-- One entry of a select list. -/
inductive Selector where
  | field (label : String)
  /-- All fields. -/
  | wildcard
  /-- A field left out of all fields. -/
  | exclude (label : String)
  deriving DecidableEq, Repr

/-- A selector as query text. -/
def Selector.text : Selector → String
  | .field label => label
  | .wildcard => "*"
  | .exclude label => "!" ++ label

/-- What a level adds to the result. -/
inductive Selection where
  /-- An object with the selected fields, in order of appearance. -/
  | fields (selectors : List Selector)
  /-- Nothing: the level is there for its filters. -/
  | unselected
  deriving DecidableEq, Repr

/-- The selectors of a selection. -/
def Selection.selectors : Selection → List Selector
  | .fields selectors => selectors
  | .unselected => []

/-- Whether a level adds to the result. -/
def Selection.isOutput : Selection → Bool
  | .fields _ => true
  | .unselected => false

/-- Sorting by a field. -/
structure Sorting where
  field : String
  order : SortOrder
  deriving DecidableEq, Repr

/-- One level of a query. -/
structure ActionTree where
  /-- The relation through which the level is reached; the root has none. -/
  name : Option String
  select : Selection
  filters : List Filter
  sort : Option Sorting
  limit : Option UInt64
  offset : Option UInt64
  /-- The levels that relations lead to, by the name of the relation. -/
  relations : List (String × ActionTree)

namespace ActionTree

/-- The root that selects nothing. -/
def empty : ActionTree := ⟨none, .fields [], [], none, none, none, []⟩

/-- A level that is there for its filters, and has none yet. -/
def unselected (name : String) : ActionTree := { empty with name := some name, select := .unselected }

/-- Whether a level is reached through no relation. -/
def isRoot (t : ActionTree) : Bool := t.name.isNone

/-- The level with one more filter, unless it has the same one. -/
def addFilter (t : ActionTree) (f : Filter) : ActionTree := { t with filters := TreeQuery.addFilter t.filters f }

/-- The tree with `f` applied to the level at the end of a path of relations; levels that are missing on the way are
made, for their filters only. -/
def modifyAt (f : ActionTree → ActionTree) : List String → ActionTree → ActionTree
  | [], t => f t
  | head :: path, t =>
    { t with relations := Keyed.alter head (fun child => modifyAt f path (child.getD (unselected head))) t.relations }

end ActionTree

end TreeQuery
