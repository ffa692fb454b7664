import TreeQuery.ActionTree

/-!
# Merging levels

A relation that a query mentions twice is one level: selectors and filters are united in order of appearance, the
later sort, limit and offset win, and the levels inside are merged in turn. A level that was there for its filters
only takes the selection of one that selects.
-/

namespace TreeQuery

/-- A list with one more entry at its end, unless it is there. -/
def addNew {α : Type} [DecidableEq α] (list : List α) (entry : α) : List α :=
  if entry ∈ list then list else list ++ [entry]

/-- The selection of a level that `theirs` is merged into. -/
def Selection.merge : (mine theirs : Selection) → Selection
  | mine, .unselected => mine
  | .fields mine, .fields theirs => .fields (theirs.foldl addNew mine)
  | .unselected, .fields theirs => .fields theirs

namespace ActionTree

mutual

/-- The level `mine` with another one merged into it. -/
def merge (mine : ActionTree) : (theirs : ActionTree) → ActionTree
  | ⟨_, select, filters, sort, limit, offset, relations⟩ =>
    { name := mine.name
      select := mine.select.merge select
      filters := filters.foldl TreeQuery.addFilter mine.filters
      sort := sort.or mine.sort
      limit := limit.or mine.limit
      offset := offset.or mine.offset
      relations := mergeRelations mine.relations relations }

/-- Relations with others merged into them, each under the name that its level carries. -/
def mergeRelations (mine : List (String × ActionTree)) : List (String × ActionTree) → List (String × ActionTree)
  | [] => mine
  | (_, child) :: rest =>
    mergeRelations
      (Keyed.alter (child.name.getD "") (fun
        | none => child
        | some existing => existing.merge child) mine)
      rest

end

/-- The tree with a level filed under its name, merged into the one that is there. -/
def graft (t child : ActionTree) : ActionTree :=
  { t with
    relations := Keyed.alter (child.name.getD "") (fun
      | none => child
      | some existing => existing.merge child) t.relations }

/-- Merging the relations of a level is merging them one by one. -/
theorem mergeRelations_cons (t : ActionTree) (key : String) (child : ActionTree) (rest : List (String × ActionTree)) :
    mergeRelations t.relations ((key, child) :: rest) = mergeRelations (t.graft child).relations rest := by
  rw [mergeRelations]; rfl

end ActionTree

end TreeQuery
