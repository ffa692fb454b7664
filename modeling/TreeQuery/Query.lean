import TreeQuery.Number.Bounds
import TreeQuery.Plan
import TreeQuery.Sql.Select

/-!
# Compiling plans

A plan becomes one select with one row and one cell, which holds a JSON array.

Each level selects a `payload` object for every row of its table. A relation becomes a derived table that folds the
payloads of the child level into one array (`obj`) for every join key (`__key`); it is joined to the level above, whose
payload takes the array in. A paged relation numbers the rows of each key (`__rn`) and keeps a window of numbers.

Tables are called `t0`, `t1` and so on in the order in which they are met: `aliasCount` tells how many a level takes,
so that each level knows where its names start.
-/

namespace TreeQuery

open Sql

/-- How many rows the root shows if the query does not say. -/
def defaultLimit : UInt64 := 20

/-- The object that a level makes of a row. -/
def payloadColumn : String := "payload"

/-- The column by which a derived table is joined. -/
def keyColumn : String := "__key"

/-- The number of a row among those with its key. -/
def rowNumberColumn : String := "__rn"

/-- The payloads of a key. -/
def arrayColumn : String := "obj"

/-- The document. -/
def resultColumn : String := "result"

/-- The name of the table with a number. -/
def tableAlias (n : Nat) : String := "t" ++ toString n

mutual

/-- How many table names a level takes: one for its table, and for each relation those of the level behind it and two
for the derived tables around that. -/
def PlannedLevel.aliasCount : PlannedLevel → Nat
  | ⟨_, _, _, _, _, _, _, relations⟩ => 1 + relationAliasCount relations

/-- How many table names some relations take. -/
def relationAliasCount : List (JoinedLevel PlannedLevel) → Nat
  | [] => 0
  | ⟨_, _, _, level⟩ :: rest => level.aliasCount + 2 + relationAliasCount rest

end

/-- A column compared with a value; lists are compared with in no other way than membership. -/
def compareExpr (column : Expr) (op : Operator) (sqlOp : BinaryOperator) (value : Value) : Except Error Expr :=
  if value.isList then .error (.uncompilable (.listOperand op)) else .ok (.binary column sqlOp (.param value))

/-- The elements of a list, or a single value. -/
def listElements : Value → List Value
  | .list items => items
  | value => [value]

/-- The test of a condition on a column. -/
def conditionExpr (table : String) (c : ColumnCondition) : Except Error Expr :=
  let column := Expr.column table c.field.column
  match c.operator with
  | .compare comparison => compareExpr column c.operator (.compare comparison) c.value
  | .like => compareExpr column c.operator .like c.value
  | .ilike =>
    if c.value.isList then .error (.uncompilable (.listOperand c.operator))
    else .ok (.binary (.call "lower" [column]) .like (.call "lower" [.param c.value]))
  | .oneOf => .ok (.inList column ((listElements c.value).map .param))
  | .isNull =>
    match c.value with
    | .int flag => .ok (.isNull column (flag == 0))
    | value => .error (.uncompilable (.noFlag value.kind))

/-- What a relation adds to the object of its parent: an array, or the first element of it for a single partner. -/
def partnerValue (direction : Direction) (table : String) : Expr :=
  let matched := Expr.isNull (.column table keyColumn) true
  match direction with
  | .toOne => .case matched (.call "json_extract" [.column table arrayColumn, .text "$[0]"]) none
  | .toMany | .manyToMany =>
    .case matched (.call "json" [.column table arrayColumn]) (some (.call "json" [.text "[]"]))

/-- The order that is asked for, and then the identity, so that pages are stable. -/
def levelOrder (e : Entity) (sort : Option (EntityField × SortOrder)) (table : String) : List (Expr × SortOrder) :=
  let byIdentity := (Expr.column table e.identity, SortOrder.ascending)
  match sort with
  | some (field, order) =>
    let asked := (Expr.column table field.column, order)
    if field.column = e.identity then [asked] else [asked, byIdentity]
  | none => [byIdentity]

/-- A count as a literal; counts beyond the largest literal become the largest one. -/
def literalCount (n : Nat) : Int64 := Int64.ofNat (min n (Number.int64Bound - 1))

/-- The sum of two counts, or the largest count. -/
def saturatingSum (a b : UInt64) : Nat := min (a.toNat + b.toNat) (UInt64.size - 1)

/-- The tests that keep a window of row numbers: those after the offset, and as many as the limit says. -/
def windowConditions (rows : String) (limit offset : Option UInt64) : List Expr :=
  if isPaged limit offset then
    let number := Expr.column rows rowNumberColumn
    let skipped := offset.getD 0
    let above := Expr.binary number (.compare .greater) (.int (literalCount skipped.toNat))
    match limit.filter (0 < ·) with
    | some count => [above, .binary number (.compare .lessOrEqual) (.int (literalCount (saturatingSum skipped count)))]
    | none => [above]
  else []

/-- A relation of a level in SQL: what it adds to the payload, and its join. -/
structure Attachment where
  payload : List Expr
  join : Join Select

/-- The payload entries of the fields of a level. -/
def fieldEntries (table : String) (fields : List EntityField) : List Expr :=
  fields.flatMap fun f => [.text f.label, .column table f.column]

/-- A select of a level with the parts that do not depend on where the level stands. -/
def levelBase (e : Entity) (output : Bool) (fields : List EntityField) (table : String) (attachments : List Attachment)
    (conditions : List Expr) (grouped : Bool) : Select :=
  let payload := fieldEntries table fields ++ attachments.flatMap Attachment.payload
  { items := if output then [(.call "json_object" payload, some payloadColumn)] else []
    source := .table e.table table
    joins := attachments.map Attachment.join
    conditions
    groupBy := if grouped then [.column table e.identity] else []
    orderBy := []
    limit := none
    offset := none }

/-- Where a level stands. -/
inductive Standing where
  | root
  /-- Behind a relationship; its rows are told apart by a column. -/
  | child (keyColumn : String)

/-- The select of a level at its place: the root is ordered and paged as a whole, and a child shows its key and, if it
is paged, numbers the rows of each key. -/
def placed (base : Select) (position : Standing) (table : String) (order : List (Expr × SortOrder))
    (limit offset : Option UInt64) : Select :=
  match position with
  | .root =>
    { base with
      orderBy := order
      limit := some (limit.getD defaultLimit) |>.filter (0 < ·)
      offset := offset.filter (0 < ·) }
  | .child column =>
    let key := Expr.column table column
    let numbers := if isPaged limit offset then [(.rowNumber [key] order, some rowNumberColumn)] else []
    { base with
      items := base.items ++ (key, some keyColumn) :: numbers
      orderBy := (key, .ascending) :: order }

/-- The derived table that folds the rows of a child level into one array for every key. -/
def folded (inner : Select) (rows : String) (output : Bool) (limit offset : Option UInt64) : Select :=
  let key := Expr.column rows keyColumn
  let array := if output then
      [(.call "json_group_array" [.call "json" [.column rows payloadColumn]], some arrayColumn)]
    else []
  { items := array ++ [(key, some keyColumn)]
    source := .derived inner rows
    joins := []
    conditions := windowConditions rows limit offset
    groupBy := [key]
    orderBy := []
    limit := none
    offset := none }

/-- A relation attached to the table of its parent. -/
def attachment (table label : String) (relationship : Relationship) (kind : JoinKind) (level : PlannedLevel)
    (inner : Select) (rows array : String) : Attachment :=
  { payload := if level.output then [.text label, partnerValue relationship.direction array] else []
    join :=
      { kind
        source := .derived (folded inner rows level.output level.limit level.offset) array
        condition := .binary (.column table relationship.parentColumn) (.compare .equal) (.column array keyColumn) } }

/-- Whether one of some relations has many partners. -/
def hasToMany (relations : List (JoinedLevel PlannedLevel)) : Bool :=
  relations.any fun r => r.relationship.direction == .toMany

mutual

/-- The select of a level whose table names start at `n`. -/
def PlannedLevel.select (n : Nat) (position : Standing) : PlannedLevel → Except Error Select
  | ⟨entity, output, fields, conditions, sort, limit, offset, relations⟩ => do
    let table := tableAlias n
    let attachments ← attachments entity table (n + 1) relations
    let conditions ← conditions.mapM (conditionExpr table)
    let base := levelBase entity output fields table attachments conditions (hasToMany relations)
    return placed base position table (levelOrder entity sort table) limit offset

/-- The relations of a level of `entity`, whose table names start at `n`. -/
def attachments (entity : Entity) (table : String) (n : Nat) :
    List (JoinedLevel PlannedLevel) → Except Error (List Attachment)
  | [] => .ok []
  | ⟨label, relationship, kind, level⟩ :: rest => do
    if relationship.direction = .manyToMany then
      throw (.uncompilable (.manyToMany entity.name label))
    let inner ← level.select n (.child relationship.childColumn)
    let rows := n + level.aliasCount
    let later ← attachments entity table (rows + 2) rest
    return attachment table label relationship kind level inner (tableAlias rows) (tableAlias (rows + 1)) :: later

end

/-- The rows of a root level as one JSON array. -/
def documentSelect (inner : Select) (rows : String) : Select :=
  let objects := Expr.call "group_concat" [.column rows payloadColumn, .text ","]
  let document := Expr.binary
    (.binary (.text "[") .concat (.call "coalesce" [objects, .text ""])) .concat (.text "]")
  { Select.ofSource (.derived inner rows) with items := [(document, some resultColumn)] }

/-- A compiled query. -/
structure Query where
  entity : String
  select : Select

/-- The query of a plan. -/
def PlannedLevel.query (l : PlannedLevel) : Except Error Query := do
  let inner ← l.select 0 .root
  return ⟨l.entity.name, documentSelect inner (tableAlias l.aliasCount)⟩

/-- The query of a tree over an entity. The tree need not be valid. -/
def ActionTree.compile (r : Registry) (e : Entity) (t : ActionTree) : Except Error Query := do
  (← t.plan r e).query

end TreeQuery
