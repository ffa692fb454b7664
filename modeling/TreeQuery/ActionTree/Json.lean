import TreeQuery.ActionTree
import TreeQuery.Json.Reader
import TreeQuery.Number.Reading

/-!
# Action trees as JSON

Every structure is an object with its members in a fixed order, and every choice an object with one member, or a
string if nothing is to be said beside the choice. Readers are more liberal than the writer: members may come in any
order or be unknown, those that may be absent may be missing, a structure may be an array of all its members, and a
bare choice may be a member whose value is null.

Readers take the number of containers that may still be opened, and refuse documents that nest deeper.
-/

namespace TreeQuery

open Json (tagged ofMembers)

/-! ## Writing -/

/-- The name of an operator in documents. -/
def Operator.tag : Operator → String
  | .compare .greaterOrEqual => "Gte"
  | .compare .greater => "Gt"
  | .compare .less => "Lt"
  | .compare .lessOrEqual => "Lte"
  | .compare .equal => "Eq"
  | .compare .notEqual => "Ne"
  | .oneOf => "In"
  | .isNull => "IsNull"
  | .like => "Like"
  | .ilike => "ILike"

/-- The name of a direction in documents. -/
def SortOrder.tag : SortOrder → String
  | .ascending => "Asc"
  | .descending => "Desc"

/-- A number as a document; there is none for NaN and the infinities. -/
def Binary64.toJson (x : Binary64) : Json :=
  if x.isNaN || x.isInfinite then .null else .number (Number.Style.json.literal x)

mutual

/-- A value as a document. -/
def Value.toJson : Value → Json
  | .int n => tagged "Int" (.ofInt n.toInt)
  | .float x => tagged "Float" x.toJson
  | .date d => tagged "Date" (.ofText d.text)
  | .string s => tagged "String" (.ofText s)
  | .list items => tagged "List" (.array (Value.toJsonAll items))

/-- Some values as documents. -/
def Value.toJsonAll : List Value → List Json
  | [] => []
  | v :: rest => v.toJson :: Value.toJsonAll rest

end

/-- A path as a document. -/
def FieldPath.toJson (p : FieldPath) : Json :=
  if p.isDotted then tagged "Nested" (.array (p.segments.map .ofText)) else tagged "Plain" (.ofText p.field)

/-- A filter as a document. -/
def Filter.toJson (f : Filter) : Json :=
  ofMembers [("field", f.path.toJson), ("operator", .ofText f.operator.tag), ("value", f.value.toJson)]

/-- A selector as a document. -/
def Selector.toJson : Selector → Json
  | .field label => tagged "Field" (.ofText label)
  | .wildcard => .ofText "Wildcard"
  | .exclude label => tagged "Exclude" (.ofText label)

/-- A selection as a document. -/
def Selection.toJson : Selection → Json
  | .fields selectors => tagged "Fields" (.array (selectors.map Selector.toJson))
  | .unselected => .ofText "FilterOnly"

/-- A sort as a document. -/
def Sorting.toJson (s : Sorting) : Json := ofMembers [("field", .ofText s.field), ("order", .ofText s.order.tag)]

/-- What may be absent as a document. -/
def optionalJson {α : Type} (f : α → Json) : Option α → Json
  | some a => f a
  | none => .null

/-- A count as a document. -/
def countJson (n : UInt64) : Json := .ofInt n.toNat

namespace ActionTree

mutual

/-- A tree as a document. -/
def toJson : ActionTree → Json
  | ⟨name, select, filters, sort, limit, offset, relations⟩ =>
    ofMembers
      [("name", optionalJson .ofText name), ("select", select.toJson), ("filters", .array (filters.map Filter.toJson)),
        ("sort", optionalJson Sorting.toJson sort), ("limit", optionalJson countJson limit),
        ("offset", optionalJson countJson offset), ("relations", .object (relationsJson relations))]

/-- Relations as the members of an object. -/
def relationsJson : List (String × ActionTree) → List (Json.Text × Json)
  | [] => []
  | (label, child) :: rest => (Json.codePoints label, toJson child) :: relationsJson rest

end

/-- The compact JSON text of a tree. -/
def jsonText (t : ActionTree) : String := t.toJson.text

end ActionTree

/-! ## Reading -/

namespace Json

/-- The text of a string. -/
def text? : Json → Option String
  | .string t => toText? t
  | _ => none

/-- Reads what may be null. -/
def optional? {α : Type} (f : Json → Option α) : Json → Option (Option α)
  | .null => some none
  | j => (f j).map some

/-- The members of an object under some names, in the order of the names; each at most once, others left aside. -/
def members? (names : List String) : List (Text × Json) → Option (List (Option Json))
  | [] => some (names.map fun _ => none)
  | (name, value) :: rest => do
    let name ← toText? name
    let found ← members? names rest
    if name ∈ names then
      if ((names.zip found).any fun (n, v) => n == name && v.isSome) then none
      else return (names.zip found).map fun (n, v) => if n = name then some value else v
    else return found

/-- The parts of a structure with some names: an object, or an array of exactly all parts. -/
def parts? (names : List String) : Json → Option (List (Option Json))
  | .object members => members? names members
  | .array items => if items.length = names.length then some (items.map some) else none
  | _ => none

/-- The name of a choice and what is said beside it. -/
def choice? : Json → Option (String × Option Json)
  | .string t => do return (← toText? t, none)
  | .object [(name, value)] => do return (← toText? name, some value)
  | _ => none

/-- The name of a choice beside which nothing is said. -/
def bareChoice? : Option Json → Option Unit
  | none | some .null => some ()
  | some _ => none

/-- Reads every item of an array. -/
def items? {α : Type} (f : Json → Option α) : Json → Option (List α)
  | .array items => items.mapM f
  | _ => none

end Json

open Json (choice? bareChoice? parts? items? optional? text?)

/-- Spends one container of those that may still be opened; a string opens none. -/
def enter? : Nat → Json → Option Nat
  | n, .string _ => some n
  | n + 1, _ => some n
  | 0, _ => none

/-- The choice without further parts that has a name. -/
def choiceOf? {α : Type} (choices : List (String × α)) (depth : Nat) (j : Json) : Option α := do
  let _ ← enter? depth j
  let (name, beside) ← choice? j
  bareChoice? beside
  Keyed.find? name choices

/-- Reads an operator. -/
def Operator.ofJson? (depth : Nat) (j : Json) : Option Operator :=
  choiceOf? ([Operator.compare .greaterOrEqual, .compare .greater, .compare .less, .compare .lessOrEqual,
    .compare .equal, .compare .notEqual, .oneOf, .isNull, .like, .ilike].map fun op => (op.tag, op)) depth j

/-- Reads a direction. -/
def SortOrder.ofJson? (depth : Nat) (j : Json) : Option SortOrder :=
  choiceOf? ([SortOrder.ascending, .descending].map fun o => (o.tag, o)) depth j

/-- Reads a value. -/
def Value.ofJson? : Nat → Json → Option Value
  | depth + 1, .object [(name, beside)] => do
    let name ← Json.toText? name
    if name = "Int" then
      match beside with
      | .number l => l.int64?.map .int
      | _ => none
    else if name = "Float" then
      match beside with
      | .number l => l.binary64?.map .float
      | _ => none
    else if name = "Date" then (← text? beside) |> Date.ofText? |>.map .date
    else if name = "String" then (text? beside).map .string
    else if name = "List" then
      match depth with
      | depth + 1 => (items? (Value.ofJson? depth) beside).map .list
      | 0 => none
    else none
  | _, _ => none

/-- Reads a path. -/
def FieldPath.ofJson? (depth : Nat) (j : Json) : Option FieldPath := do
  let depth ← enter? depth j
  match ← choice? j with
  | ("Plain", some beside) => return ⟨[], ← text? beside⟩
  | ("Nested", some beside) =>
    let _ ← enter? depth beside
    FieldPath.ofDotted? (← items? text? beside)
  | _ => none

/-- Reads a filter. -/
def Filter.ofJson? (depth : Nat) (j : Json) : Option Filter := do
  let depth ← enter? depth j
  match ← parts? ["field", "operator", "value"] j with
  | [some field, some operator, some value] =>
    return ⟨← FieldPath.ofJson? depth field, ← Operator.ofJson? depth operator, ← Value.ofJson? depth value⟩
  | _ => none

/-- Reads a selector. -/
def Selector.ofJson? (depth : Nat) (j : Json) : Option Selector := do
  let _ ← enter? depth j
  match ← choice? j with
  | ("Field", some beside) => return .field (← text? beside)
  | ("Wildcard", beside) => (bareChoice? beside).map fun _ => .wildcard
  | ("Exclude", some beside) => return .exclude (← text? beside)
  | _ => none

/-- Reads a selection. -/
def Selection.ofJson? (depth : Nat) (j : Json) : Option Selection := do
  let depth ← enter? depth j
  match ← choice? j with
  | ("Fields", some beside) =>
    let depth ← enter? depth beside
    return .fields (← items? (Selector.ofJson? depth) beside)
  | ("FilterOnly", beside) => (bareChoice? beside).map fun _ => .unselected
  | _ => none

/-- Reads a sort. -/
def Sorting.ofJson? (depth : Nat) (j : Json) : Option Sorting := do
  let depth ← enter? depth j
  match ← parts? ["field", "order"] j with
  | [some field, some order] => return ⟨← text? field, ← SortOrder.ofJson? depth order⟩
  | _ => none

/-- Reads a count. -/
def countOfJson? : Json → Option UInt64
  | .number l => l.uint64?
  | _ => none

/-- Reads what may be missing or null. -/
def missing? {α : Type} (f : Json → Option α) : Option Json → Option (Option α)
  | some j => optional? f j
  | none => some none

/-- Reads a list, whose container is spent first. -/
def listOfJson? {α : Type} (f : Nat → Json → Option α) (depth : Nat) (j : Json) : Option (List α) := do
  let depth ← enter? depth j
  items? (f depth) j

/-- The names of the members of a tree. -/
def ActionTree.memberNames : List String := ["name", "select", "filters", "sort", "limit", "offset", "relations"]

/-- Reads a tree. -/
def ActionTree.ofJson? : Nat → Json → Option ActionTree
  | depth + 2, j => do
    match ← parts? memberNames j with
    | [name, some select, some filters, sort, limit, offset, some (.object members)] =>
      let relations ← members.mapM fun (label, child) => do
        return (← Json.toText? label, ← ActionTree.ofJson? depth child)
      return {
        name := ← missing? text? name
        select := ← Selection.ofJson? (depth + 1) select
        filters := ← listOfJson? Filter.ofJson? (depth + 1) filters
        sort := ← missing? (Sorting.ofJson? (depth + 1)) sort
        limit := ← missing? countOfJson? limit
        offset := ← missing? countOfJson? offset
        relations := Keyed.ofPairs relations }
    | _ => none
  | _, _ => none

/-- How many containers of a document may be open at once. -/
def maxJsonDepth : Nat := 127

/-- The tree that a JSON text holds. -/
def ActionTree.ofJsonText? (s : String) : Option ActionTree := do
  ActionTree.ofJson? maxJsonDepth (← Json.read? s)

end TreeQuery
