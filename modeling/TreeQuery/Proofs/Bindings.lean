import TreeQuery.Proofs.Compilation
import TreeQuery.Proofs.Resolution
import TreeQuery.Proofs.Searching
import TreeQuery.Proofs.Sql.Placeholders
import TreeQuery.Query.OfText

/-!
# The parameters of a query

A compiled query binds the operands of its conditions and nothing else (`params_compile`): first those of the relations
of a level, one relation after the other, and then those of the level itself (`PlannedLevel.bindings`). A relation that
is joined twice binds its operands twice.

The order is that of the text, in which the joins of a select stand before its conditions. All the rest of a select is
made of names, texts and numbers and binds nothing (`overlooks_value?`).
-/

namespace TreeQuery

open Outcome Sql

/-! ## The operands of a plan -/

/-- The values that a condition binds: none for a flag, the elements of a list that something is to be one of, and
otherwise the operand. -/
def ColumnCondition.bindings (c : ColumnCondition) : List Value :=
  match c.operator, c.value with
  | .isNull, _ => []
  | .oneOf, .list items => items
  | _, value => [value]

mutual

/-- The values that a level binds: those of its relations in order, and then those of its own conditions. -/
def PlannedLevel.bindings : PlannedLevel → List Value
  | ⟨_, _, _, conditions, _, _, _, relations⟩ => joinBindings relations ++ conditions.flatMap ColumnCondition.bindings

/-- The values that some relations bind. -/
def joinBindings : List (JoinedLevel PlannedLevel) → List Value
  | [] => []
  | ⟨_, _, _, level⟩ :: rest => level.bindings ++ joinBindings rest

end

/-! ## Conditions -/

theorem boundValues_params (values : List Value) : boundValues (partsOfAll (values.map .param)) = values := by
  induction values with
  | nil => rfl
  | cons value rest ih => exact congrArg (value :: ·) ih

theorem boundValues_compareExpr {table column : String} {op : Operator} {sqlOp : BinaryOperator} {value : Value}
    {e : Expr} (h : compareExpr (.column table column) op sqlOp value = .ok e) : boundValues e.parts = [value] := by
  unfold compareExpr at h
  split at h
  · cases h
  · cases h
    rfl

/-- The test of a condition binds what the condition does. -/
theorem boundValues_conditionExpr {table : String} {c : ColumnCondition} {e : Expr}
    (h : conditionExpr table c = .ok e) : boundValues e.parts = c.bindings := by
  obtain ⟨field, op, value⟩ := c
  cases op with
  | compare comparison => exact boundValues_compareExpr h
  | like => exact boundValues_compareExpr h
  | ilike =>
    simp only [conditionExpr] at h
    split at h
    · cases h
    · cases h
      rfl
  | oneOf =>
    cases h
    have hlist : boundValues (partsOfAll ((listElements value).map .param)) = listElements value :=
      boundValues_params _
    cases value with
    | list items => exact hlist
    | _ => rfl
  | isNull =>
    cases value with
    | int flag => cases h; rfl
    | _ => cases h

theorem boundValues_conditions {table : String} {conditions : List ColumnCondition} {es : List Expr}
    (h : conditions.mapM (conditionExpr table) = .ok es) :
    boundValues (partsOfAll es) = conditions.flatMap ColumnCondition.bindings := by
  induction conditions generalizing es with
  | nil =>
    cases h
    rfl
  | cons c rest ih =>
    rw [List.mapM_cons] at h
    obtain ⟨e, he, h⟩ := bind_eq_ok.1 h
    obtain ⟨es', hes, h⟩ := bind_eq_ok.1 h
    cases h
    rw [partsOfAll, boundValues_append, boundValues_conditionExpr he, ih hes, List.flatMap_cons]

/-! ## Levels -/

/-- Nothing but conditions binds values. -/
theorem overlooks_value? : Overlooks Expr.value? where
  column _ _ := rfl
  text _ := rfl
  call _ _ _ := rfl
  binary _ _ _ := rfl
  isNull _ _ := rfl
  inList _ _ := rfl
  case _ _ _ := rfl
  rowNumber _ _ := rfl

mutual

/-- The select of a level binds what the level binds. -/
theorem boundValues_select : ∀ {l : PlannedLevel} {n : Nat} {position : Standing} {s : Select},
    l.select n position = .ok s → boundValues s.parts = l.bindings
  | ⟨_, _, _, _, _, _, _, relations⟩, _, _, _, h => by
    obtain ⟨as, cs, has, hcs, hfound⟩ := overlooks_value?.filterMap_select_of_object (fun _ => rfl) h
    rw [boundValues, hfound, PlannedLevel.bindings, ← boundValues_attachments has, ← boundValues_conditions hcs]
    rfl

/-- The joins of some relations bind what the relations bind. -/
theorem boundValues_attachments : ∀ {relations : List (JoinedLevel PlannedLevel)} {entity : Entity} {table : String}
    {n : Nat} {as : List Attachment}, attachments entity table n relations = .ok as →
      boundValues (joinsParts (as.map Attachment.join)) = joinBindings relations
  | [], _, _, _, _, h => by
    rw [attachments] at h
    cases h
    rfl
  | ⟨label, relationship, kind, level⟩ :: rest, entity, table, n, as, h => by
    obtain ⟨_, inner, later, hinner, hlater, rfl⟩ := attachments_cons_eq_ok.1 h
    rw [List.map_cons, boundValues, overlooks_value?.filterMap_joinsParts_of_int (fun _ => rfl), joinBindings,
      ← boundValues_select hinner, ← boundValues_attachments hlater]
    rfl

end

/-! ## Queries -/

theorem boundValues_query {l : PlannedLevel} {q : Query} (h : l.query = .ok q) :
    boundValues q.select.parts = l.bindings := by
  obtain ⟨inner, hinner, rfl⟩ := PlannedLevel.query_eq_ok.1 h
  rw [← boundValues_select hinner]
  exact overlooks_value?.filterMap_documentSelect inner (tableAlias l.aliasCount)

theorem params_query {l : PlannedLevel} {q : Query} (h : l.query = .ok q) : q.statement.params = l.bindings :=
  q.select.pieceValues_pieces.trans (boundValues_query h)

/-- **Parameters in the order of the plan.** A compiled query binds the operands of the conditions of its plan, those of
the relations before those of the level that they belong to, and nothing else. -/
theorem params_compile {r : Registry} {e : Entity} {t : ActionTree} {q : Query} (h : t.compile r e = .ok q) :
    ∃ p, t.plan r e = .ok p ∧ q.statement.params = p.bindings := by
  obtain ⟨p, hp, hquery⟩ := compile_eq_ok.1 h
  exact ⟨p, hp, params_query hquery⟩

/-- Tasks with an identity and one of two labels, and the first of their steps; a task needs a certain step. -/
def tasksWithDraft : ActionTree :=
  { ActionTree.empty with
    filters := [⟨⟨[], "label"⟩, .oneOf, .list [.string "a", .string "b"]⟩, ⟨⟨[], "id"⟩, .isNull, .int 0⟩,
      ⟨⟨["steps"], "label"⟩, .like, .string "draft%"⟩]
    relations := [("steps", { ActionTree.empty with
      name := some "steps"
      filters := [⟨⟨[], "id"⟩, .compare .greater, .int 3⟩]
      limit := some 1 })] }

theorem params_compile_draft : ∃ q p, tasksWithDraft.compile taskRegistry taskEntity = .ok q ∧
    tasksWithDraft.plan taskRegistry taskEntity = .ok p ∧ q.statement.params = p.bindings ∧
    p.bindings = [.int 3, .string "draft%", .int 3, .string "draft%", .string "a", .string "b"] := by
  have hcompile : ∃ q, tasksWithDraft.compile taskRegistry taskEntity = .ok q := ⟨_, rfl⟩
  have hplan : ∃ p, tasksWithDraft.plan taskRegistry taskEntity = .ok p ∧
      p.bindings = [.int 3, .string "draft%", .int 3, .string "draft%", .string "a", .string "b"] := ⟨_, rfl, rfl⟩
  obtain ⟨q, hq⟩ := hcompile
  obtain ⟨p, hp, hbindings⟩ := hplan
  obtain ⟨p', hp', hparams⟩ := params_compile hq
  rw [hp] at hp'
  cases hp'
  exact ⟨q, p, hq, hp, hparams, hbindings⟩

end TreeQuery
