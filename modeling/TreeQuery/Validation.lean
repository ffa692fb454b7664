import TreeQuery.ActionTree
import TreeQuery.Registry
import TreeQuery.Text.EditDistance

/-!
# Validation

Whether a tree fits the schema. Levels are checked from the top down, in each level the selectors, then the relations,
then the filters, then the sort; the first misfit is reported, with the nearest known name where one is near enough.
-/

namespace TreeQuery

/-- How many edits a name may be away from a suggestion, by its length in bytes. -/
def suggestionDistance (name : String) : Nat :=
  if name.utf8ByteSize ≤ 2 then 0 else if name.utf8ByteSize ≤ 5 then 2 else 3

/-- The first of the nearest candidates, if it is near enough. -/
def suggestion? (name : String) (candidates : List String) : Option String :=
  let near := (candidates.map fun c => (Text.editDistance name.toList c.toList, c)).filter
    fun (distance, _) => distance ≤ suggestionDistance name
  (nearest near).map Prod.snd
where
  /-- The first pair with the least distance. -/
  nearest : List (Nat × String) → Option (Nat × String)
    | [] => none
    | p :: rest =>
      match nearest rest with
      | some q => if q.1 < p.1 then some q else some p
      | none => some p

/-- The error that a name is not known on an entity. -/
def unknownName (kind : NameKind) (name : String) (e : Entity) (candidates : List String) : Error :=
  .invalid (.unknownName kind name e.name (suggestion? name candidates))

/-- A name that is used as a field is one. -/
def checkField (e : Entity) (label : String) : Except Error Unit :=
  if (e.field? label).isSome then .ok ()
  else if (e.relationship? label).isSome then .error (.invalid (.relationAsField label e.name))
  else .error (unknownName .field label e (e.fields.map EntityField.label))

/-- The entity that a relation leads to. -/
def destination (r : Registry) (e : Entity) (label : String) : Except Error Entity :=
  match e.relationship? label with
  | some rel => r.target e label rel
  | none => .error (unknownName .relation label e (Keyed.keys e.relationships))

/-- A path leads through relations to a field. -/
def checkPath (r : Registry) (field : String) : List String → Entity → Except Error Unit
  | [], e => checkField e field
  | head :: via, e => do checkPath r field via (← destination r e head)

/-- What is wrong with lists of more than one kind of value. -/
def mixture? : Value → Option OperandFault
  | .list (first :: rest) =>
    (rest.find? fun v => v.kind != first.kind).map fun other => .mixedList first.kind other.kind
  | _ => none

/-- What is wrong with the operand of an operator. -/
def operandFault? (op : Operator) (value : Value) : Option OperandFault :=
  match op with
  | .compare c =>
    if c.isOrdering then (if value.isString || value.isList then some (.noOrder value.kind) else none)
    else if value.isList then some .equalityWithList
    else none
  | .like | .ilike => if value.isString then none else some (.noPattern value.kind)
  | .oneOf => mixture? value
  | .isNull => if value.kind = .integer then none else some (.noFlag value.kind)

/-- A filter speaks of a field, and its operator takes its operand. -/
def checkFilter (r : Registry) (e : Entity) (f : Filter) : Except Error Unit := do
  checkPath r f.path.field f.path.via e
  match operandFault? f.operator f.value with
  | some fault => .error (.invalid (.operand f fault))
  | none => .ok ()

/-- A selector names a field. -/
def checkSelector (e : Entity) : Selector → Except Error Unit
  | .wildcard => .ok ()
  | .field label | .exclude label => checkField e label

/-- A sort names a field. -/
def checkSorting (e : Entity) : Option Sorting → Except Error Unit
  | some sort => checkField e sort.field
  | none => .ok ()

mutual

/-- A tree fits an entity and all that its relations lead to. -/
def validate (r : Registry) (e : Entity) : ActionTree → Except Error Unit
  | ⟨_, select, filters, sort, _, _, relations⟩ => do
    select.selectors.forM (checkSelector e)
    validateRelations r e relations
    filters.forM (checkFilter r e)
    checkSorting e sort

/-- The relations of a level fit the entity of the level. -/
def validateRelations (r : Registry) (e : Entity) : List (String × ActionTree) → Except Error Unit
  | [] => .ok ()
  | (label, child) :: rest => do
    validate r (← destination r e label) child
    validateRelations r e rest

end

end TreeQuery
