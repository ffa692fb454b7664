import TreeQuery.Proofs.Aliases
import TreeQuery.Proofs.PlanLevels
import TreeQuery.Proofs.Sql.Scope

/-!
# Compiled queries are well scoped

In a compiled query every alias is introduced once, every column is that of a source of the select in which it stands,
and every select shows something (`compile_wellScoped`).

The columns of a level are those of its table and those that the derived tables of its relations offer
(`columns_placed`). Such a table needs the level in it to show its key, its payload if it adds to the result, and its
row numbers if it is paged (`Serves`); a child level does (`resolved_select`), and no more than that is used
(`columns_folded`).
-/

namespace TreeQuery

open Outcome Sql

/-! ## Columns -/

section Columns

variable {table rows array : String} {e : Expr} {column : String × String}

theorem columns_fieldEntries {fields : List EntityField} (he : e ∈ fieldEntries table fields) (h : column ∈ e.columns) :
    column.1 = table := by
  obtain ⟨f, _, hf⟩ := List.mem_flatMap.1 he
  rcases List.mem_pair.1 hf with rfl | rfl
  · cases h
  · cases List.mem_singleton.1 h
    rfl

theorem columns_levelOrder {entity : Entity} {sort : Option (EntityField × SortOrder)}
    (he : e ∈ (levelOrder entity sort table).map Prod.fst) (h : column ∈ e.columns) : column.1 = table := by
  have hterm : ∃ name, e = .column table name := by
    unfold levelOrder at he
    split at he
    · split at he
      · exact ⟨_, List.mem_singleton.1 he⟩
      · rcases List.mem_pair.1 he with rfl | rfl
        · exact ⟨_, rfl⟩
        · exact ⟨_, rfl⟩
    · exact ⟨_, List.mem_singleton.1 he⟩
  obtain ⟨name, rfl⟩ := hterm
  cases List.mem_singleton.1 h
  rfl

theorem columns_compareExpr {name : String} {op : Operator} {sqlOp : BinaryOperator} {value : Value}
    (h : compareExpr (.column table name) op sqlOp value = .ok e) : e.columns = [(table, name)] := by
  unfold compareExpr at h
  split at h
  · cases h
  · cases h
    rfl

/-- A condition tests a column of the table of its level. -/
theorem columns_conditionExpr {c : ColumnCondition} (hc : conditionExpr table c = .ok e) (h : column ∈ e.columns) :
    column.1 = table := by
  have hcolumn : e.columns = [(table, c.field.column)] := by
    obtain ⟨field, op, value⟩ := c
    cases op with
    | compare comparison => exact columns_compareExpr hc
    | like => exact columns_compareExpr hc
    | ilike =>
      simp only [conditionExpr] at hc
      split at hc
      · cases hc
      · cases hc
        rfl
    | oneOf =>
      cases hc
      exact congrArg (_ :: ·) (columns_params _)
    | isNull =>
      cases value with
      | int flag => cases hc; rfl
      | _ => cases hc
  rw [hcolumn] at h
  rw [List.mem_singleton.1 h]

/-- The window tests look at row numbers, and only a paged level has them. -/
theorem columns_windowConditions {limit offset : Option UInt64} (he : e ∈ windowConditions rows limit offset)
    (h : column ∈ e.columns) : column = (rows, rowNumberColumn) ∧ isPaged limit offset = true := by
  unfold windowConditions at he
  split at he
  · rename_i hpaged
    refine ⟨?_, hpaged⟩
    split at he
    · rcases List.mem_pair.1 he with rfl | rfl
      · exact List.mem_singleton.1 h
      · exact List.mem_singleton.1 h
    · cases List.mem_singleton.1 he
      exact List.mem_singleton.1 h
  · cases he

theorem columns_partnerValue {direction : Direction} (h : column ∈ (partnerValue direction array).columns) :
    column = (array, keyColumn) ∨ column = (array, arrayColumn) := by
  cases direction <;> exact List.mem_pair.1 h

end Columns

/-! ## Derived tables -/

section Derived

variable {base inner : Select} {position : Standing} {table rows array label column name : String}
  {order : List (Expr × SortOrder)} {limit offset : Option UInt64} {output : Bool}

theorem offers_placed (h : base.Offers name) : (placed base position table order limit offset).Offers name := by
  obtain ⟨item, hitem, hname⟩ := h
  cases position with
  | root => exact ⟨item, hitem, hname⟩
  | child column => exact ⟨item, List.mem_append_left _ hitem, hname⟩

theorem offers_placed_key : (placed base (.child column) table order limit offset).Offers keyColumn :=
  ⟨_, List.mem_append_right _ List.mem_cons_self, rfl⟩

theorem offers_placed_rowNumber (h : isPaged limit offset = true) :
    (placed base (.child column) table order limit offset).Offers rowNumberColumn := by
  refine ⟨(.rowNumber [.column table column] order, some rowNumberColumn), List.mem_append_right _ ?_, rfl⟩
  rw [if_pos h]
  exact List.mem_cons_of_mem _ List.mem_cons_self

theorem offers_levelBase {e : Entity} {fields : List EntityField} {relations : List Attachment} {conditions : List Expr}
    {grouped : Bool} (h : output = true) :
    (levelBase e output fields table relations conditions grouped).Offers payloadColumn := by
  subst h
  exact ⟨_, List.mem_singleton_self _, rfl⟩

/-- What a derived table around a child level needs the level to show. -/
structure Serves (inner : Select) (output : Bool) (limit offset : Option UInt64) : Prop where
  key : inner.Offers keyColumn
  payload : output = true → inner.Offers payloadColumn
  rowNumber : isPaged limit offset = true → inner.Offers rowNumberColumn

theorem offers_folded_key : (folded inner rows output limit offset).Offers keyColumn :=
  ⟨_, List.mem_append_right _ (List.mem_singleton_self _), rfl⟩

theorem offers_folded_array (h : output = true) : (folded inner rows output limit offset).Offers arrayColumn := by
  subst h
  exact ⟨_, List.mem_append_left _ (List.mem_singleton_self _), rfl⟩

/-- The derived table around a child level looks at nothing that the level does not show. -/
theorem columns_folded (h : Serves inner output limit offset) {column : String × String}
    (hcolumn : column ∈ (folded inner rows output limit offset).columns) : column.1 = rows ∧ inner.Offers column.2 := by
  have hkey (hk : column ∈ (Expr.column rows keyColumn).columns) : column.1 = rows ∧ inner.Offers column.2 := by
    cases List.mem_singleton.1 hk
    exact ⟨rfl, h.key⟩
  obtain ⟨e, he, hcolumn⟩ := List.mem_flatMap.1 hcolumn
  rcases List.mem_append.1 he with he | he
  · obtain ⟨item, hitem, rfl⟩ := List.mem_map.1 he
    rcases List.mem_append.1 hitem with hitem | hitem
    · split at hitem
      · rename_i houtput
        cases List.mem_singleton.1 hitem
        cases List.mem_singleton.1 hcolumn
        exact ⟨rfl, h.payload houtput⟩
      · cases hitem
    · cases List.mem_singleton.1 hitem
      exact hkey hcolumn
  · have hrest : e ∈ windowConditions rows limit offset ++ [.column rows keyColumn] := he
    rcases List.mem_append.1 hrest with he | he
    · obtain ⟨rfl, hpaged⟩ := columns_windowConditions he hcolumn
      exact ⟨rfl, h.rowNumber hpaged⟩
    · cases List.mem_singleton.1 he
      exact hkey hcolumn

theorem resolved_folded (h : Serves inner output limit offset) : (folded inner rows output limit offset).Resolved := by
  refine ⟨List.append_ne_nil_of_right_ne_nil _ (List.cons_ne_nil _ _), fun column hcolumn => ?_⟩
  obtain ⟨hrows, hinner⟩ := columns_folded h hcolumn
  exact ⟨.derived inner rows, List.mem_cons_self, hrows.symm, hinner⟩

/-- What a relation adds to its level is found in its derived table or in the table of the level. -/
structure Attachment.Attached (table : String) (a : Attachment) : Prop where
  payload : ∀ e ∈ a.payload, ∀ column ∈ e.columns, Resolves [a.join.source] column
  condition : ∀ column ∈ a.join.condition.columns, column.1 = table ∨ Resolves [a.join.source] column
  nested : ∀ q ∈ sourceNested a.join.source, q.Resolved

theorem attached_attachment {rel : Relationship} {kind : JoinKind} {level : PlannedLevel}
    (h : Serves inner level.output level.limit level.offset) (hinner : ∀ q ∈ inner.nested, q.Resolved) :
    (attachment table label rel kind level inner rows array).Attached table := by
  have harray {name : String} (hname : (folded inner rows level.output level.limit level.offset).Offers name) :
      Resolves [(attachment table label rel kind level inner rows array).join.source] (array, name) :=
    ⟨_, List.mem_singleton_self _, rfl, hname⟩
  refine ⟨fun e he column hcolumn => ?_, fun column hcolumn => ?_, fun q hq => ?_⟩
  · simp only [attachment] at he
    split at he
    · rename_i houtput
      rcases List.mem_pair.1 he with rfl | rfl
      · cases hcolumn
      · rcases columns_partnerValue hcolumn with rfl | rfl
        · exact harray offers_folded_key
        · exact harray (offers_folded_array houtput)
    · cases he
  · rcases List.mem_pair.1 hcolumn with rfl | rfl
    · exact .inl rfl
    · exact .inr (harray offers_folded_key)
  · have hfolded : q ∈ (folded inner rows level.output level.limit level.offset).nested := hq
    rw [Select.nested_of_derived rfl rfl] at hfolded
    rcases List.mem_cons.1 hfolded with rfl | hq
    · exact resolved_folded h
    · exact hinner q hq

end Derived

/-! ## Levels -/

section Levels

variable {table : String} {relations : List Attachment} {conditions : List Expr} {e : Entity} {output grouped : Bool}
  {fields : List EntityField} {position : Standing} {sort : Option (EntityField × SortOrder)}
  {limit offset : Option UInt64} {column : String × String}

/-- The payload of a level is made of its fields and of what its relations add. -/
theorem columns_levelItems (hrelations : ∀ a ∈ relations, a.Attached table) {item : Expr × Option String}
    (hitem : item ∈ (levelBase e output fields table relations conditions grouped).items)
    (h : column ∈ item.1.columns) : column.1 = table ∨ ∃ a ∈ relations, Resolves [a.join.source] column := by
  simp only [levelBase] at hitem
  split at hitem
  · cases List.mem_singleton.1 hitem
    rw [columns_call] at h
    obtain ⟨entry, hentry, h⟩ := List.mem_flatMap.1 h
    rcases List.mem_append.1 hentry with hentry | hentry
    · exact .inl (columns_fieldEntries hentry h)
    · obtain ⟨a, ha, hentry⟩ := List.mem_flatMap.1 hentry
      exact .inr ⟨a, ha, (hrelations a ha).payload entry hentry column h⟩
  · cases hitem

theorem columns_placedItems {base : Select} {item : Expr × Option String}
    (hitem : item ∈ (placed base position table (levelOrder e sort table) limit offset).items)
    (h : column ∈ item.1.columns) : item ∈ base.items ∨ column.1 = table := by
  cases position with
  | root => exact .inl hitem
  | child name =>
    rcases List.mem_append.1 hitem with hitem | hitem
    · exact .inl hitem
    · right
      rcases List.mem_cons.1 hitem with rfl | hitem
      · exact columns_column rfl h
      · split at hitem
        · cases List.mem_singleton.1 hitem
          rw [columns_rowNumber] at h
          obtain ⟨x, hx, h⟩ := List.mem_flatMap.1 h
          rcases List.mem_append.1 hx with hx | hx
          · exact columns_column (List.mem_singleton.1 hx) h
          · exact columns_levelOrder hx h
        · cases hitem

theorem columns_placedOrder {base : Select} {x : Expr}
    (hx : x ∈ (placed base position table (levelOrder e sort table) limit offset).orderBy.map Prod.fst)
    (h : column ∈ x.columns) : column.1 = table := by
  cases position with
  | root => exact columns_levelOrder hx h
  | child name =>
    rcases List.mem_cons.1 hx with hx | hx
    · exact columns_column hx h
    · exact columns_levelOrder hx h

/-- The columns of a level are those of its table and of the derived tables of its relations. -/
theorem columns_placed (hconditions : ∀ c ∈ conditions, ∀ column ∈ c.columns, column.1 = table)
    (hrelations : ∀ a ∈ relations, a.Attached table)
    (h : column ∈ (placed (levelBase e output fields table relations conditions grouped) position table
      (levelOrder e sort table) limit offset).columns) :
    column.1 = table ∨ ∃ a ∈ relations, Resolves [a.join.source] column := by
  obtain ⟨x, hx, h⟩ := List.mem_flatMap.1 h
  rw [Select.exprs, placed_joins, placed_conditions, placed_groupBy] at hx
  rcases List.mem_append.1 hx with hx | hx
  · obtain ⟨item, hitem, rfl⟩ := List.mem_map.1 hx
    rcases columns_placedItems hitem h with hitem | htable
    · exact columns_levelItems hrelations hitem h
    · exact .inl htable
  rcases List.mem_append.1 hx with hx | hx
  · obtain ⟨j, hj, rfl⟩ := List.mem_map.1 hx
    obtain ⟨a, ha, rfl⟩ := List.mem_map.1 hj
    exact ((hrelations a ha).condition column h).imp_right fun hcolumn => ⟨a, ha, hcolumn⟩
  left
  rcases List.mem_append.1 hx with hx | hx
  · exact hconditions x hx column h
  rcases List.mem_append.1 hx with hx | hx
  · simp only [levelBase] at hx
    split at hx
    · exact columns_column (List.mem_singleton.1 hx) h
    · cases hx
  · exact columns_placedOrder hx h

theorem resolved_placed (hshows : position = .root → output = true)
    (hconditions : ∀ c ∈ conditions, ∀ column ∈ c.columns, column.1 = table)
    (hrelations : ∀ a ∈ relations, a.Attached table) :
    (placed (levelBase e output fields table relations conditions grouped) position table (levelOrder e sort table)
      limit offset).Resolved := by
  constructor
  · cases position with
    | root =>
      rw [hshows rfl]
      exact List.cons_ne_nil _ _
    | child column => exact List.append_ne_nil_of_right_ne_nil _ (List.cons_ne_nil _ _)
  · intro column hcolumn
    rw [Select.sources, placed_source, placed_joins]
    rcases columns_placed hconditions hrelations hcolumn with h | ⟨a, ha, h⟩
    · exact ⟨.table e.table table, List.mem_cons_self, h.symm, trivial⟩
    · refine h.mono fun source hsource => ?_
      cases List.mem_singleton.1 hsource
      exact List.mem_cons_of_mem _ (List.mem_map_of_mem (List.mem_map_of_mem ha))

end Levels

mutual

/-- Every select of a compiled level is resolved, and a child level shows what the derived table around it needs. -/
theorem resolved_select : ∀ (l : PlannedLevel) {n : Nat} {position : Standing} {s : Select},
    l.select n position = .ok s → (position = .root → l.output = true) →
      (∀ q ∈ s.nested, q.Resolved) ∧ (l.output = true → s.Offers payloadColumn) ∧
        ∀ column, position = .child column → Serves s l.output l.limit l.offset
  | ⟨e, output, fields, conditions, sort, limit, offset, relations⟩, n, position, s, h, hshows => by
    obtain ⟨as, cs, has, hcs, rfl⟩ := PlannedLevel.select_eq_ok.1 h
    have hrelations : ∀ a ∈ as, a.Attached (tableAlias n) := attached_attachments relations has
    have hconditions : ∀ c ∈ cs, ∀ column ∈ c.columns, column.1 = tableAlias n := fun c hc column hcolumn => by
      obtain ⟨_, _, hc⟩ := mem_of_mapM_eq_ok hcs hc
      exact columns_conditionExpr hc hcolumn
    refine ⟨fun q hq => ?_, fun houtput => offers_placed (offers_levelBase houtput), ?_⟩
    · rw [Select.nested_eq, placed_source, placed_joins] at hq
      rcases List.mem_cons.1 hq with rfl | hq
      · exact resolved_placed hshows hconditions hrelations
      · obtain ⟨j, hj, hq⟩ := mem_joinsNested.1 hq
        obtain ⟨a, ha, rfl⟩ := List.mem_map.1 hj
        exact (hrelations a ha).nested q hq
    · rintro column rfl
      exact ⟨offers_placed_key, fun houtput => offers_placed (offers_levelBase houtput), offers_placed_rowNumber⟩

theorem attached_attachments : ∀ (joins : List (JoinedLevel PlannedLevel)) {entity : Entity} {table : String} {n : Nat}
    {relations : List Attachment}, attachments entity table n joins = .ok relations →
      ∀ a ∈ relations, a.Attached table
  | [], _, _, _, _, h => by cases h; exact nofun
  | ⟨label, rel, kind, level⟩ :: rest, entity, table, n, _, h => by
    obtain ⟨_, inner, later, hinner, hlater, rfl⟩ := attachments_cons_eq_ok.1 h
    obtain ⟨hnested, _, hserves⟩ := resolved_select level hinner nofun
    exact List.forall_mem_cons.2 ⟨attached_attachment (hserves _ rfl) hnested, attached_attachments rest hlater⟩

end

/-! ## Queries -/

/-- The document is made of the payloads that its rows show. -/
theorem resolved_documentSelect {inner : Select} {rows : String} (h : inner.Offers payloadColumn) :
    (documentSelect inner rows).Resolved := by
  refine ⟨List.cons_ne_nil _ _, fun column hcolumn => ?_⟩
  cases List.mem_singleton.1 hcolumn
  exact ⟨.derived inner rows, List.mem_cons_self, rfl, h⟩

/-- **Compiled queries are well scoped.** If the root of a tree shows fields, then in its query all aliases differ, the
columns that stand in a select are those of its sources, and every select shows something. -/
theorem compile_wellScoped (r : Registry) (e : Entity) (t : ActionTree) (q : Query) (hroot : t.select.isOutput = true)
    (h : t.compile r e = .ok q) : q.select.WellScoped := by
  obtain ⟨p, hp, hq⟩ := compile_eq_ok.1 h
  obtain ⟨inner, hinner, hdocument⟩ := PlannedLevel.query_eq_ok.1 hq
  have houtput : p.output = true := (output_of_plan hp).trans hroot
  obtain ⟨hnested, hpayload, _⟩ := resolved_select p hinner fun _ => houtput
  constructor
  · exact nodup_labels_query hq
  · subst hdocument
    rw [Select.nested_of_derived rfl rfl]
    exact List.forall_mem_cons.2 ⟨resolved_documentSelect (hpayload houtput), hnested⟩

/-- The tasks that have a step of a certain label, each with its first two steps. The steps are joined twice, once to be
filtered by and once to be shown and paged. -/
def tasksWithFirstSteps : ActionTree :=
  { ActionTree.empty with
    filters := [⟨⟨["steps"], "label"⟩, .compare .equal, .string "a"⟩]
    relations := [("steps", { ActionTree.empty with
      name := some "steps"
      select := .fields [.field "label"]
      sort := some ⟨"label", .descending⟩
      limit := some 2 })] }

theorem compile_wellScoped_firstSteps : tasksWithFirstSteps.select.isOutput = true ∧
    ∃ q, tasksWithFirstSteps.compile taskRegistry taskEntity = .ok q ∧ q.select.WellScoped ∧
      q.select.labels = ["t0", "t1", "t2", "t3", "t4", "t5", "t6", "t7"] := by
  have hq : ∃ q, tasksWithFirstSteps.compile taskRegistry taskEntity = .ok q ∧
      q.select.labels = ["t0", "t1", "t2", "t3", "t4", "t5", "t6", "t7"] := ⟨_, rfl, rfl⟩
  obtain ⟨q, hq, hlabels⟩ := hq
  exact ⟨rfl, q, hq, compile_wellScoped taskRegistry taskEntity tasksWithFirstSteps q rfl hq, hlabels⟩

end TreeQuery
