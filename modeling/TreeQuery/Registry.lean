import TreeQuery.Error
import TreeQuery.Keyed

/-!
# The schema registry

The entities that queries may speak of: the table of each, the column that identifies its rows, the columns that it
shows under aliases, and the relationships that lead on to other entities.
-/

namespace TreeQuery

/-- How many rows of the target belong to a row of the parent, and the other way round. -/
inductive Direction where
  | toOne
  | toMany
  /-- Needs a table of associations; it can be described but not compiled. -/
  | manyToMany
  deriving DecidableEq, Repr

/-- How a direction is written in schemas. -/
def Direction.text : Direction → String
  | .toOne => "to-one"
  | .toMany => "to-many"
  | .manyToMany => "many-to-many"

/-- The direction that a word of a schema stands for. -/
def Direction.ofText? (word : String) : Option Direction :=
  if word = "to-one" then some .toOne
  else if word = "to-many" then some .toMany
  else if word = "many-to-many" then some .manyToMany
  else none

theorem Direction.ofText?_text (d : Direction) : ofText? d.text = some d := by cases d <;> rfl

/-- A column and the alias that queries and results use for it. -/
structure EntityField where
  column : String
  label : String
  deriving DecidableEq, Repr

/-- A way from the rows of one entity to those of another: rows are joined where the two columns are equal. -/
structure Relationship where
  target : String
  direction : Direction
  parentColumn : String
  childColumn : String
  deriving DecidableEq, Repr

/-- An entity: a table seen by queries. -/
structure Entity where
  name : String
  table : String
  /-- The column that tells rows apart. -/
  identity : String
  fields : List EntityField
  relationships : List (String × Relationship)
  deriving DecidableEq, Repr

namespace Entity

/-- The first field with an alias. -/
def field? (e : Entity) (label : String) : Option EntityField := e.fields.find? fun f => f.label == label

/-- The relationship with an alias. -/
def relationship? (e : Entity) (label : String) : Option Relationship := Keyed.find? label e.relationships

end Entity

/-- All entities by name, in the order in which the names were first given. -/
structure Registry where
  entities : List (String × Entity)
  deriving DecidableEq, Repr

namespace Registry

/-- The registry without entities. -/
def empty : Registry := ⟨[]⟩

/-- The registry with an entity, in the place of an older one with its name. -/
def add (r : Registry) (e : Entity) : Registry := ⟨Keyed.put e.name e r.entities⟩

/-- The entity with a name. -/
def entity? (r : Registry) (name : String) : Option Entity := Keyed.find? name r.entities

/-- The entity that a query asks for. -/
def require (r : Registry) (name : String) : Except Error Entity :=
  match r.entity? name with
  | some e => .ok e
  | none => .error (.invalid (.unknownEntity name))

/-- The first thing wrong with a relationship of an entity: it leads nowhere, or its alias is a field's. -/
def checkRelationship (r : Registry) (e : Entity) (label : String) (rel : Relationship) : Except Error Unit :=
  if (r.entity? rel.target).isNone then .error (.schema (.unknownTarget e.name label rel.target))
  else if (e.field? label).isSome then .error (.schema (.fieldAndRelationship e.name label))
  else .ok ()

/-- Every relationship leads to an entity, and no alias is both a field and a relationship. -/
def check (r : Registry) : Except Error Unit :=
  r.entities.forM fun (_, e) => e.relationships.forM fun (label, rel) => r.checkRelationship e label rel

/-- The entity that a relationship leads to. -/
def target (r : Registry) (e : Entity) (label : String) (rel : Relationship) : Except Error Entity :=
  match r.entity? rel.target with
  | some t => .ok t
  | none => .error (.schema (.unknownTarget e.name label rel.target))

end Registry

end TreeQuery
