import TreeQuery.ActionTree.Merge
import TreeQuery.ActionTree.Route
import TreeQuery.JoinKind
import TreeQuery.Registry

/-!
# Plans

A plan is a routed tree with every name resolved against the registry and a join chosen for every relation.

A relation that restricts is joined inner, any other is joined outer. Paging shapes what is shown, and must not decide
which rows match: a restricting relation that is shown and paged is therefore joined twice, first inner by its
conditions alone (`onlyConditions`), without output and paging, and then outer with both.
-/

namespace TreeQuery

/-- A condition on a column. -/
structure ColumnCondition where
  field : EntityField
  operator : Operator
  value : Value

/-- A level joined to the one it is reached from. -/
structure JoinedLevel (Level : Type) where
  label : String
  relationship : Relationship
  join : JoinKind
  level : Level

/-- One level of a plan. -/
structure PlannedLevel where
  entity : Entity
  /-- Whether the level adds to the result. -/
  output : Bool
  /-- The columns of the result, in order. -/
  fields : List EntityField
  conditions : List ColumnCondition
  sort : Option (EntityField × SortOrder)
  limit : Option UInt64
  offset : Option UInt64
  relations : List (JoinedLevel PlannedLevel)

/-- Whether a limit or an offset asks for anything; zero does not. -/
def isPaged (limit offset : Option UInt64) : Bool := limit.any (0 < ·) || offset.any (0 < ·)

/-- The field with an alias. -/
def requireField (e : Entity) (label : String) : Except Error EntityField :=
  match e.field? label with
  | some f => .ok f
  | none => .error (.invalid (.unknownName .field label e.name none))

/-- The aliases that a select list leaves out. -/
def excludedAliases (selectors : List Selector) : List String :=
  selectors.filterMap fun
    | .exclude label => some label
    | _ => none

/-- The fields that a select list names, in order of first appearance. -/
def namedFields (e : Entity) (found : List EntityField) : List Selector → Except Error (List EntityField)
  | [] => .ok found
  | .field label :: rest => do namedFields e (addNew found (← requireField e label)) rest
  | _ :: rest => namedFields e found rest

/-- The fields of the result: all but the excluded ones if all are asked for, and otherwise the named ones. -/
def selectedFields (e : Entity) (select : Selection) : Except Error (List EntityField) :=
  if .wildcard ∈ select.selectors then
    .ok (e.fields.filter fun f => !(excludedAliases select.selectors).contains f.label)
  else namedFields e [] select.selectors

/-- A condition on the column of its field. -/
def columnCondition (e : Entity) (c : Condition) : Except Error ColumnCondition := do
  return ⟨← requireField e c.field, c.operator, c.value⟩

/-- A sort by the column of its field. -/
def columnSorting (e : Entity) : Option Sorting → Except Error (Option (EntityField × SortOrder))
  | some sort => do return some (← requireField e sort.field, sort.order)
  | none => .ok none

/-- The relationship with an alias. -/
def requireRelationship (e : Entity) (label : String) : Except Error Relationship :=
  match e.relationship? label with
  | some rel => .ok rel
  | none => .error (.invalid (.unknownName .relation label e.name none))

namespace PlannedLevel

/-- Whether the level is paged for each parent. -/
def isPaged (l : PlannedLevel) : Bool := TreeQuery.isPaged l.limit l.offset

mutual

/-- The conditions of a level and of those that restrict it, without output, sort and paging. -/
def onlyConditions : PlannedLevel → PlannedLevel
  | ⟨entity, _, _, conditions, _, _, _, relations⟩ =>
    ⟨entity, false, [], conditions, none, none, none, onlyRestricting relations⟩

/-- The conditions behind the relations that restrict. -/
def onlyRestricting : List (JoinedLevel PlannedLevel) → List (JoinedLevel PlannedLevel)
  | [] => []
  | ⟨label, relationship, join, level⟩ :: rest =>
    if join = .inner then ⟨label, relationship, .inner, onlyConditions level⟩ :: onlyRestricting rest
    else onlyRestricting rest

end

end PlannedLevel

/-- The joins of a level behind a relation. -/
def joinsOf (label : String) (relationship : Relationship) (restricts : Bool) (level : PlannedLevel) :
    List (JoinedLevel PlannedLevel) :=
  if !restricts then [⟨label, relationship, .outer, level⟩]
  else if level.output && level.isPaged then
    [⟨label, relationship, .inner, level.onlyConditions⟩, ⟨label, relationship, .outer, level⟩]
  else [⟨label, relationship, .inner, level⟩]

namespace RoutedTree

mutual

/-- The plan of a routed tree as a level of an entity. -/
def plan (r : Registry) (e : Entity) : RoutedTree → Except Error PlannedLevel
  | ⟨select, conditions, sort, limit, offset, branches⟩ => do
    let conditions ← conditions.mapM (columnCondition e)
    let fields ← selectedFields e select
    let sort ← columnSorting e sort
    let relations ← planBranches r e branches
    return ⟨e, select.isOutput, fields, conditions, sort, limit, offset, relations⟩

/-- The joins of the branches of a level. -/
def planBranches (r : Registry) (e : Entity) : List (Branch RoutedTree) → Except Error (List (JoinedLevel PlannedLevel))
  | [] => .ok []
  | ⟨label, restricts, level⟩ :: rest => do
    let relationship ← requireRelationship e label
    let target ← r.target e label relationship
    let level ← plan r target level
    let later ← planBranches r e rest
    return joinsOf label relationship restricts level ++ later

end

end RoutedTree

/-- The plan of a tree as a level of an entity. -/
def ActionTree.plan (r : Registry) (e : Entity) (t : ActionTree) : Except Error PlannedLevel := t.route.plan r e

end TreeQuery
