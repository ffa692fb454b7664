import TreeQuery.Proofs.Compilation
import TreeQuery.Proofs.Renaming
import TreeQuery.Proofs.Resolution
import TreeQuery.Proofs.Sql.Params
import TreeQuery.Query.OfText

/-!
# Values never reach the text

The plan of a renamed tree is compiled to the select of the tree with renamed parameters (`select_mapValues`): of a
value, compiling sees no more than whether it is a list, and the flag of a null test. So the text of the statement does
not depend on the values, and its parameters are the renamed ones (`compile_mapValues`).
-/

namespace TreeQuery

open Outcome Sql

variable {σ : Value → Value}

/-! ## Conditions -/

theorem isList_rename_operand (hσ : Value.Renames σ) (op : Operator) (v : Value) :
    (op.renameOperand σ v).isList = v.isList := by
  unfold Operator.renameOperand
  split
  · rfl
  · exact Value.isList_rename hσ v

theorem listElements_of_scalar {v : Value} (h : v.isList = false) : listElements v = [v] := by
  cases v with
  | list items => cases h
  | _ => rfl

theorem listElements_rename (hσ : Value.Renames σ) (v : Value) :
    listElements (v.rename σ) = (listElements v).map (Value.rename σ) := by
  cases hv : v.isList with
  | false =>
    rw [listElements_of_scalar hv, listElements_of_scalar ((Value.isList_rename hσ v).trans hv)]
    rfl
  | true =>
    cases v with
    | list items => exact Value.renameItems_eq_map items
    | _ => cases hv

theorem compareExpr_rename (hσ : Value.Renames σ) (table name : String) (op : Operator) (sqlOp : BinaryOperator)
    (v : Value) : compareExpr (.column table name) op sqlOp (v.rename σ) =
      (compareExpr (.column table name) op sqlOp v).map (Expr.mapParams (Value.rename σ)) := by
  unfold compareExpr
  rw [Value.isList_rename hσ]
  split <;> rfl

/-- The test of a renamed condition binds the renamed values, and is refused for the same reason. -/
theorem conditionExpr_mapValue (hσ : Value.Renames σ) (table : String) (c : ColumnCondition) :
    conditionExpr table (c.mapValue σ) = (conditionExpr table c).map (Expr.mapParams (Value.rename σ)) := by
  obtain ⟨field, op, value⟩ := c
  cases op with
  | compare comparison => exact compareExpr_rename hσ ..
  | like => exact compareExpr_rename hσ ..
  | ilike =>
    simp only [conditionExpr, ColumnCondition.mapValue, isList_rename_operand hσ]
    split <;> rfl
  | oneOf =>
    show Except.ok (Expr.inList (.column table field.column) ((listElements (value.rename σ)).map .param)) = _
    rw [listElements_rename hσ, List.map_map]
    simp only [conditionExpr, Except.map, Expr.mapParams, mapParamsOfAll_eq_map, List.map_map]
    rfl
  | isNull => cases value <;> rfl

/-! ## Selects of levels -/

section Selects

variable {f : Value → Value}

/-- A relation in SQL with `f` applied to every value that it binds. -/
def Attachment.mapParams (f : Value → Value) (a : Attachment) : Attachment :=
  ⟨mapParamsOfAll f a.payload, ⟨a.join.kind, sourceMapParams f a.join.source, a.join.condition.mapParams f⟩⟩

theorem joinsMapParams_attachments : ∀ relations : List Attachment,
    joinsMapParams f (relations.map Attachment.join) = (relations.map (Attachment.mapParams f)).map Attachment.join
  | [] => rfl
  | a :: rest => by
    simp only [List.map_cons, joinsMapParams, joinsMapParams_attachments rest]
    rfl

theorem mapParamsOfAll_append (a b : List Expr) :
    mapParamsOfAll f (a ++ b) = mapParamsOfAll f a ++ mapParamsOfAll f b := by
  simp only [mapParamsOfAll_eq_map, List.map_append]

theorem mapParamsOfAll_payload : ∀ relations : List Attachment,
    mapParamsOfAll f (relations.flatMap Attachment.payload) =
      (relations.map (Attachment.mapParams f)).flatMap Attachment.payload
  | [] => rfl
  | a :: rest => by
    simp only [List.flatMap_cons, List.map_cons, mapParamsOfAll_append, mapParamsOfAll_payload rest]
    rfl

theorem mapParamsOfAll_fieldEntries (table : String) : ∀ fields : List EntityField,
    mapParamsOfAll f (fieldEntries table fields) = fieldEntries table fields
  | [] => rfl
  | _ :: rest => congrArg (_ :: _ :: ·) (mapParamsOfAll_fieldEntries table rest)

theorem orderMapParams_levelOrder (e : Entity) (sort : Option (EntityField × SortOrder)) (table : String) :
    orderMapParams f (levelOrder e sort table) = levelOrder e sort table := by
  unfold levelOrder
  split
  · split <;> rfl
  · rfl

theorem map_windowConditions (rows : String) (limit offset : Option UInt64) :
    (windowConditions rows limit offset).map (Expr.mapParams f) = windowConditions rows limit offset := by
  unfold windowConditions
  split
  · simp only
    split <;> rfl
  · rfl

theorem mapParams_levelBase (e : Entity) (output : Bool) (fields : List EntityField) (table : String)
    (relations : List Attachment) (conditions : List Expr) (grouped : Bool) :
    (levelBase e output fields table relations conditions grouped).mapParams f =
      levelBase e output fields table (relations.map (Attachment.mapParams f)) (conditions.map (Expr.mapParams f))
        grouped := by
  have hpayload : mapParamsOfAll f (fieldEntries table fields ++ relations.flatMap Attachment.payload) =
      fieldEntries table fields ++ (relations.map (Attachment.mapParams f)).flatMap Attachment.payload := by
    rw [mapParamsOfAll_append, mapParamsOfAll_fieldEntries, mapParamsOfAll_payload]
  simp only [levelBase, Select.mapParams, joinsMapParams_attachments]
  cases output <;> cases grouped <;>
    simp only [↓reduceIte, Bool.false_eq_true, List.map_cons, List.map_nil, itemMapParams, Expr.mapParams, hpayload,
      mapParamsOfAll, orderMapParams, sourceMapParams]

theorem mapParams_placed (base : Select) (position : Standing) (e : Entity) (sort : Option (EntityField × SortOrder))
    (table : String) (limit offset : Option UInt64) :
    (placed base position table (levelOrder e sort table) limit offset).mapParams f =
      placed (base.mapParams f) position table (levelOrder e sort table) limit offset := by
  obtain ⟨items, source, joins, conditions, groupBy, orderBy, _, _⟩ := base
  cases position with
  | root => simp only [placed, Select.mapParams, orderMapParams_levelOrder]
  | child column =>
    simp only [placed, Select.mapParams, List.map_append, List.map_cons, itemMapParams, Expr.mapParams, orderMapParams,
      orderMapParams_levelOrder]
    split <;>
      simp only [List.map_cons, List.map_nil, itemMapParams, Expr.mapParams, mapParamsOfAll, orderMapParams_levelOrder]

theorem mapParams_folded (inner : Select) (rows : String) (output : Bool) (limit offset : Option UInt64) :
    (folded inner rows output limit offset).mapParams f = folded (inner.mapParams f) rows output limit offset := by
  cases output <;>
    simp only [folded, Select.mapParams, map_windowConditions, sourceMapParams, joinsMapParams, orderMapParams] <;> rfl

theorem mapParams_partnerValue (direction : Direction) (array : String) :
    (partnerValue direction array).mapParams f = partnerValue direction array := by
  cases direction <;> rfl

end Selects

/-! ## Levels -/

mutual

theorem aliasCount_mapValues : ∀ l : PlannedLevel, (l.mapValues σ).aliasCount = l.aliasCount
  | ⟨_, _, _, _, _, _, _, relations⟩ => by
    simp only [PlannedLevel.mapValues, PlannedLevel.aliasCount, relationAliasCount_mapValues relations]

theorem relationAliasCount_mapValues : ∀ joins : List (JoinedLevel PlannedLevel),
    relationAliasCount (joinsMapValues σ joins) = relationAliasCount joins
  | [] => rfl
  | ⟨_, _, _, level⟩ :: rest => by
    simp only [joinsMapValues, relationAliasCount, aliasCount_mapValues level, relationAliasCount_mapValues rest]

end

theorem hasToMany_mapValues : ∀ joins : List (JoinedLevel PlannedLevel),
    hasToMany (joinsMapValues σ joins) = hasToMany joins
  | [] => rfl
  | ⟨_, relationship, _, _⟩ :: rest =>
    congrArg (relationship.direction == .toMany || ·) (hasToMany_mapValues rest)

theorem limit_mapValues : ∀ l : PlannedLevel, (l.mapValues σ).limit = l.limit
  | ⟨_, _, _, _, _, _, _, _⟩ => rfl

theorem offset_mapValues : ∀ l : PlannedLevel, (l.mapValues σ).offset = l.offset
  | ⟨_, _, _, _, _, _, _, _⟩ => rfl

theorem mapParams_attachment (table label : String) (rel : Relationship) (kind : JoinKind) (level : PlannedLevel)
    (f : Value → Value) (inner : Select) (rows array : String) :
    (attachment table label rel kind level inner rows array).mapParams f =
      attachment table label rel kind (level.mapValues σ) (inner.mapParams f) rows array := by
  simp only [attachment, Attachment.mapParams, sourceMapParams, mapParams_folded, output_mapValues, limit_mapValues,
    offset_mapValues]
  split <;> simp only [mapParamsOfAll, mapParams_partnerValue] <;> rfl

mutual

/-- A renamed plan compiles to the select with renamed parameters, or is refused for the same reason. -/
theorem select_mapValues (hσ : Value.Renames σ) : ∀ (l : PlannedLevel) (n : Nat) (position : Standing),
    (l.mapValues σ).select n position = (l.select n position).map (Select.mapParams (Value.rename σ))
  | ⟨entity, _, _, conditions, _, _, _, relations⟩, n, position => by
    have hconditions : (conditions.map (ColumnCondition.mapValue σ)).mapM (conditionExpr (tableAlias n)) =
        (conditions.mapM (conditionExpr (tableAlias n))).map (List.map (Expr.mapParams (Value.rename σ))) := by
      rw [List.mapM_map, ← mapM_map]
      exact congrArg (conditions.mapM ·) (funext fun c => conditionExpr_mapValue hσ _ c)
    simp only [PlannedLevel.mapValues, PlannedLevel.select, hconditions, attachments_mapValues hσ relations, bind_map,
      map_bind, hasToMany_mapValues, ← mapParams_levelBase, ← mapParams_placed]
    rfl

theorem attachments_mapValues (hσ : Value.Renames σ) : ∀ (joins : List (JoinedLevel PlannedLevel)) (entity : Entity)
    (table : String) (n : Nat), attachments entity table n (joinsMapValues σ joins) =
      (attachments entity table n joins).map (List.map (Attachment.mapParams (Value.rename σ)))
  | [], _, _, _ => rfl
  | ⟨label, rel, kind, level⟩ :: rest, entity, table, n => by
    rw [joinsMapValues, attachments_cons, attachments_cons]
    split
    · rfl
    · simp only [select_mapValues hσ level, attachments_mapValues hσ rest, aliasCount_mapValues, bind_map, map_bind,
        ← mapParams_attachment]
      rfl

end

/-! ## Queries -/

/-- A query with `f` applied to every value that it binds. -/
def Query.mapParams (f : Value → Value) (q : Query) : Query := ⟨q.entity, q.select.mapParams f⟩

theorem Query.statement_mapParams (f : Value → Value) (q : Query) :
    (q.mapParams f).statement = ⟨q.statement.sql, q.statement.params.map f⟩ := Sql.statement_mapParams q.select

theorem query_mapValues (hσ : Value.Renames σ) : ∀ l : PlannedLevel,
    (l.mapValues σ).query = l.query.map (Query.mapParams (Value.rename σ))
  | ⟨entity, output, fields, conditions, sort, limit, offset, relations⟩ => by
    unfold PlannedLevel.query
    rw [select_mapValues hσ, aliasCount_mapValues, bind_map, map_bind]
    rfl

theorem compile_mapValues_eq (hσ : Value.Renames σ) (r : Registry) (e : Entity) (t : ActionTree) :
    (t.mapValues σ).compile r e = (t.compile r e).map (Query.mapParams (Value.rename σ)) := by
  unfold ActionTree.compile ActionTree.plan
  rw [route_mapValues hσ, plan_mapValues, bind_map, map_bind]
  exact congrArg (t.route.plan r e >>= ·) (funext fun l => query_mapValues hσ l)

/-- **Values never reach the text.** A renamed tree is refused iff the tree is, and for the same reason; and otherwise
the text of its statement is that of the tree, and the parameters are the renamed ones. -/
theorem compile_mapValues (hσ : Value.Renames σ) (r : Registry) (e : Entity) (t : ActionTree) :
    (∀ err, (t.mapValues σ).compile r e = .error err ↔ t.compile r e = .error err) ∧
      ∀ q, t.compile r e = .ok q → ∃ q', (t.mapValues σ).compile r e = .ok q' ∧ q'.entity = q.entity ∧
        q'.statement.sql = q.statement.sql ∧ q'.statement.params = q.statement.params.map (Value.rename σ) := by
  rw [compile_mapValues_eq hσ]
  refine ⟨fun err => ?_, fun q hq => ⟨q.mapParams (Value.rename σ), ?_, rfl, ?_, ?_⟩⟩
  · cases t.compile r e with
    | error err' => exact Iff.rfl
    | ok q => exact ⟨nofun, nofun⟩
  · rw [hq]
    rfl
  · rw [Query.statement_mapParams]
  · rw [Query.statement_mapParams]

/-- Every text with a piece of SQL after it. -/
def appendComment : Value → Value
  | .string s => .string (s ++ "' OR 1=1; --?")
  | v => v

theorem renames_appendComment : Value.Renames appendComment where
  scalar v h := by cases v <;> first | rfl | cases h
  same v w hv hw := by
    cases v with
    | string s =>
      cases w with
      | string s' =>
        rw [Bool.eq_iff_iff]
        simp only [appendComment, Value.same, beq_iff_eq, String.append_left_inj]
      | list _ => cases hw
      | int _ | float _ | date _ => rfl
    | list _ => cases hv
    | int _ | float _ | date _ => cases w <;> rfl

/-- Tasks with one of two labels, and a step of a certain label, which is asked for twice. -/
def tasksByLabels : ActionTree :=
  { ActionTree.empty with
    filters :=
      [⟨⟨[], "label"⟩, .oneOf, .list [.string "a", .string "b"]⟩, ⟨⟨["steps"], "label"⟩, .like, .string "c%"⟩,
        ⟨⟨["steps"], "label"⟩, .like, .string "c%"⟩, ⟨⟨["steps"], "id"⟩, .isNull, .int 0⟩] }

theorem compile_mapValues_labels : Value.Renames appendComment ∧ ∃ q q',
    tasksByLabels.compile taskRegistry taskEntity = .ok q ∧
      (tasksByLabels.mapValues appendComment).compile taskRegistry taskEntity = .ok q' ∧
      q'.entity = q.entity ∧ q'.statement.sql = q.statement.sql ∧
      q'.statement.params = q.statement.params.map (Value.rename appendComment) ∧
      q.statement.params = [.string "c%", .string "a", .string "b"] := by
  have hq : ∃ q, tasksByLabels.compile taskRegistry taskEntity = .ok q ∧
      q.statement.params = [.string "c%", .string "a", .string "b"] := ⟨_, rfl, rfl⟩
  obtain ⟨q, hq, hparams⟩ := hq
  have hσ : Value.Renames appendComment := renames_appendComment
  obtain ⟨q', hq', hentity, hsql, hrenamed⟩ := (compile_mapValues hσ taskRegistry taskEntity tasksByLabels).2 q hq
  exact ⟨hσ, q, q', hq, hq', hentity, hsql, hrenamed, hparams⟩

end TreeQuery
