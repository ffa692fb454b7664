import TreeQuery.Registry
import TreeQuery.Registry.JoinCondition
import TreeQuery.Toml.Reader

/-!
# Schema documents

A registry is written as a TOML document with an array `entity` of entities. Each has a `name` and may have a `table`
(its name, if not given), an `identity`, `fields` and an array `relationship`. A field is a name, or a table with a
`name` and an `alias`; a relationship has an `alias`, a `target`, a `direction` and the condition `on` which it joins.
Entries under other keys are ignored.

An entity and a relationship may also be written as an array of their entries in this order; then only `fields` and
`relationship` may be left out, and what comes after them is ignored.
-/

namespace TreeQuery

/-- The direction that a value names: by its word, or by a table with one entry, in which the word is the key of
something void. -/
def Direction.ofToml? : Toml → Option Direction
  | .string word => ofText? word
  | .table [(word, v)] => if v.isVoid then ofText? word else none
  | _ => none

/-- The field that a value describes. -/
def EntityField.ofToml? : Toml → Option EntityField
  | .string column => some ⟨column, column⟩
  | .table entries => do
    let column ← Toml.required? Toml.text? "name" entries
    let label ← Toml.optional? Toml.text? "alias" entries
    return ⟨column, label.getD column⟩
  | _ => none

/-- A relationship as documents describe it. -/
structure RelationshipDraft where
  label : String
  target : String
  direction : Direction
  condition : String
  deriving DecidableEq, Repr

/-- The relationship that a value describes. -/
def RelationshipDraft.ofToml? : Toml → Option RelationshipDraft
  | .table entries => do
    return ⟨← Toml.required? Toml.text? "alias" entries, ← Toml.required? Toml.text? "target" entries,
      ← Toml.required? Direction.ofToml? "direction" entries, ← Toml.required? Toml.text? "on" entries⟩
  | .array (label :: target :: direction :: condition :: _) => do
    return ⟨← label.text?, ← target.text?, ← Direction.ofToml? direction, ← condition.text?⟩
  | _ => none

/-- An entity as documents describe it. -/
structure EntityDraft where
  name : String
  table : String
  identity : String
  fields : List EntityField
  relationships : List RelationshipDraft
  deriving DecidableEq, Repr

namespace EntityDraft

/-- The identity of entities for which no other column is given. -/
def defaultIdentity : String := "id"

/-- The entity that a value describes. -/
def ofToml? : Toml → Option EntityDraft
  | .table entries => do
    let name ← Toml.required? Toml.text? "name" entries
    let table ← Toml.optional? Toml.text? "table" entries
    let identity ← Toml.optional? Toml.text? "identity" entries
    let fields ← Toml.optional? (Toml.items? EntityField.ofToml?) "fields" entries
    let relationships ← Toml.optional? (Toml.items? RelationshipDraft.ofToml?) "relationship" entries
    return ⟨name, table.getD name, identity.getD defaultIdentity, fields.getD [], relationships.getD []⟩
  | .array (name :: table :: identity :: rest) => do
    let fields ← (rest[0]?).mapM (Toml.items? EntityField.ofToml?)
    let relationships ← (rest[1]?).mapM (Toml.items? RelationshipDraft.ofToml?)
    return ⟨← name.text?, ← table.text?, ← identity.text?, fields.getD [], relationships.getD []⟩
  | _ => none

/-- The relationship that is meant, under its alias, where `tables` has the tables of all entities. -/
def relationship (e : EntityDraft) (tables : List (String × String)) (spec : RelationshipDraft) :
    Except Error (String × Relationship) :=
  match Keyed.find? spec.target tables with
  | none => .error (.schema (.unknownTarget e.name spec.label spec.target))
  | some table =>
    match joinColumns spec.condition e.table table with
    | .ok (parentColumn, childColumn) => .ok (spec.label, ⟨spec.target, spec.direction, parentColumn, childColumn⟩)
    | .error fault => .error (.schema (.join e.name spec.label fault))

/-- The entity that is meant. Of two relationships with one alias the later one counts. -/
def entity (e : EntityDraft) (tables : List (String × String)) : Except Error Entity := do
  let relationships ← e.relationships.mapM (e.relationship tables)
  return ⟨e.name, e.table, e.identity, e.fields, Keyed.ofPairs relationships⟩

end EntityDraft

namespace Registry

/-- The entities that a document describes. -/
def specs? (document : List (String × Toml)) : Option (List EntityDraft) := do
  let specs ← Toml.optional? (Toml.items? EntityDraft.ofToml?) "entity" document
  return specs.getD []

/-- The registry of the entities that are meant. Of two entities with one name the later one counts. -/
def ofSpecs (specs : List EntityDraft) : Except Error Registry := do
  let tables := Keyed.ofPairs (specs.map fun e => (e.name, e.table))
  let entities ← specs.mapM fun e => e.entity tables
  let r := entities.foldl add empty
  r.check
  return r

/-- The registry that a TOML text describes. -/
def ofTomlText (text : String) : Except Error Registry :=
  match (Toml.read? text).bind specs? with
  | some specs => ofSpecs specs
  | none => .error (.schema .notADocument)

/-- The registry that a file describes, given what reading it brought. -/
def ofFile (path : String) : Except FileFault String → Except Error Registry
  | .ok text => ofTomlText text
  | .error fault => .error (.schema (.unreadable path fault))

end Registry

end TreeQuery
