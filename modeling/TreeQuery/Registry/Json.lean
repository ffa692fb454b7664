import TreeQuery.Json
import TreeQuery.Registry

/-!
# Registries as JSON

Every structure is an object with its members in a fixed order; entities and relationships are members under their
names, in the order in which the names were first given.
-/

namespace TreeQuery

open Json (codePoints ofMembers ofText)

/-- A field as a document. -/
def EntityField.toJson (f : EntityField) : Json := ofMembers [("name", ofText f.column), ("alias", ofText f.label)]

/-- A relationship as a document. -/
def Relationship.toJson (r : Relationship) : Json :=
  ofMembers
    [("target", ofText r.target), ("direction", ofText r.direction.text), ("parent_column", ofText r.parentColumn),
      ("child_column", ofText r.childColumn)]

/-- An entity as a document. -/
def Entity.toJson (e : Entity) : Json :=
  ofMembers
    [("name", ofText e.name), ("table", ofText e.table), ("identity", ofText e.identity),
      ("fields", .array (e.fields.map EntityField.toJson)),
      ("relationships", .object (e.relationships.map fun (label, r) => (codePoints label, r.toJson)))]

/-- A registry as a document. -/
def Registry.toJson (r : Registry) : Json :=
  ofMembers [("entities", .object (r.entities.map fun (name, e) => (codePoints name, e.toJson)))]

/-- The compact JSON text of a registry. -/
def Registry.jsonText (r : Registry) : String := r.toJson.text

end TreeQuery
