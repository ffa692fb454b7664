import TreeQuery.ActionTree.Merge
import TreeQuery.SyntaxTree.Reader

/-!
# From syntax to action

Each level of a syntax tree becomes a level of an action tree: selectors and filters are kept in order without
repetition, relations are filed under their names, and of several sorts, limits or offsets the last one counts.
-/

namespace TreeQuery.ActionTree

/-- The level with one more selector, unless it has it. -/
def addSelector (t : ActionTree) (s : Selector) : ActionTree :=
  { t with select := .fields (addNew t.select.selectors s) }

/-- The level with one more modifier applied. -/
def modify (t : ActionTree) : Modifier → Except Error ActionTree
  | .filter path operator value =>
    match FieldPath.ofSegments? path with
    | some path => .ok (t.addFilter ⟨path, operator, value⟩)
    | none => .error (.invalid .filterWithoutField)
  | .order field order => .ok { t with sort := some ⟨field, order⟩ }
  | .limit count => .ok { t with limit := some count }
  | .offset count => .ok { t with offset := some count }

/-- The level with modifiers applied in order. -/
def modifyAll (t : ActionTree) : List Modifier → Except Error ActionTree
  | [] => .ok t
  | m :: rest => do modifyAll (← t.modify m) rest

mutual

/-- The level that a syntax tree describes, reached through the relation `name`. -/
def ofLevel (name : Option String) : SyntaxTree → Except Error ActionTree
  | ⟨fields, modifiers⟩ => do
    let t ← addFields { empty with name } fields
    t.modifyAll modifiers

/-- The level with the entries of a field list added in order. -/
def addFields (t : ActionTree) : List (FieldEntry SyntaxTree) → Except Error ActionTree
  | [] => .ok t
  | .name label :: rest => addFields (t.addSelector (.field label)) rest
  | .excluded label :: rest => addFields (t.addSelector (.exclude label)) rest
  | .wildcard :: rest => addFields (t.addSelector .wildcard) rest
  | .relation label level :: rest => do
    let child ← ofLevel (some label) level
    addFields (t.graft child) rest

end

/-- The action tree of a syntax tree. -/
def ofSyntax (tree : SyntaxTree) : Except Error ActionTree := ofLevel none tree

/-- The action tree of a query. -/
def ofText (text : String) : Except Error ActionTree := do
  ofSyntax (← SyntaxTree.ofText text)

end TreeQuery.ActionTree
