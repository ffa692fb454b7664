import Mathlib.Data.List.Nodup
import TreeQuery.Proofs.Bindings
import TreeQuery.Proofs.Constraints
import TreeQuery.Proofs.Renaming

/-!
# Lists among the parameters

A parameter is a scalar, with one exception. Membership is tested by binding the elements of a list one by one, but the
elements are not looked into: a query has a list among its parameters iff one of the lists that its tree lists elements
of holds a list (`bindsList_iff`). Validation lets such a list pass if all of its elements are lists
(`validates_nestedLabels`).

The conditions of a plan, taken from all its levels (`PlannedLevel.allConditions`), bind its parameters. They come from
filters of the tree (`exists_constraint_of_mem`), each filter is found among them again (`exists_condition_of_mem`), and
in a plan that compiles no operator but membership has a list as its operand (`bindsList_condition_iff`).
-/

namespace TreeQuery

open Outcome Sql

/-! ## Conditions of a plan -/

mutual

/-- The conditions of all levels of a plan. -/
def PlannedLevel.allConditions : PlannedLevel → List ColumnCondition
  | ⟨_, _, _, conditions, _, _, _, relations⟩ => joinConditions relations ++ conditions

/-- The conditions of all levels behind some joins. -/
def joinConditions : List (JoinedLevel PlannedLevel) → List ColumnCondition
  | [] => []
  | ⟨_, _, _, level⟩ :: rest => level.allConditions ++ joinConditions rest

end

mutual

theorem bindings_eq_flatMap : ∀ l : PlannedLevel, l.bindings = l.allConditions.flatMap ColumnCondition.bindings
  | ⟨_, _, _, _, _, _, _, relations⟩ => by
    rw [PlannedLevel.bindings, PlannedLevel.allConditions, List.flatMap_append, joinBindings_eq_flatMap relations]

theorem joinBindings_eq_flatMap : ∀ joins : List (JoinedLevel PlannedLevel),
    joinBindings joins = (joinConditions joins).flatMap ColumnCondition.bindings
  | [] => rfl
  | ⟨_, _, _, level⟩ :: rest => by
    rw [joinBindings, joinConditions, List.flatMap_append, bindings_eq_flatMap level, joinBindings_eq_flatMap rest]

end

section Conditions

variable {cc : ColumnCondition}

theorem mem_joinConditions {joins : List (JoinedLevel PlannedLevel)} :
    cc ∈ joinConditions joins ↔ ∃ j ∈ joins, cc ∈ j.level.allConditions := by
  induction joins with
  | nil => simp [joinConditions]
  | cons j rest ih => rw [joinConditions, List.mem_append, ih, List.exists_mem_cons_iff]

theorem mem_allConditions {l : PlannedLevel} :
    cc ∈ l.allConditions ↔ (∃ j ∈ l.relations, cc ∈ j.level.allConditions) ∨ cc ∈ l.conditions := by
  obtain ⟨_, _, _, conditions, _, _, _, relations⟩ := l
  rw [PlannedLevel.allConditions, List.mem_append, mem_joinConditions]

mutual

/-- A level that is left for its conditions has no others. -/
theorem mem_allConditions_of_onlyConditions : ∀ {l : PlannedLevel},
    cc ∈ l.onlyConditions.allConditions → cc ∈ l.allConditions
  | ⟨_, _, _, _, _, _, _, _⟩, h => by
    rw [PlannedLevel.onlyConditions, PlannedLevel.allConditions, List.mem_append] at h
    rw [PlannedLevel.allConditions, List.mem_append]
    exact h.imp_left mem_joinConditions_of_onlyRestricting

theorem mem_joinConditions_of_onlyRestricting : ∀ {joins : List (JoinedLevel PlannedLevel)},
    cc ∈ joinConditions (PlannedLevel.onlyRestricting joins) → cc ∈ joinConditions joins
  | [], h => h
  | ⟨_, _, _, _⟩ :: _, h => by
    rw [PlannedLevel.onlyRestricting] at h
    rw [joinConditions, List.mem_append]
    split at h
    · rw [joinConditions, List.mem_append] at h
      exact h.imp mem_allConditions_of_onlyConditions mem_joinConditions_of_onlyRestricting
    · exact .inr (mem_joinConditions_of_onlyRestricting h)

end

end Conditions

/-! ## Conditions and filters -/

section Filters

variable {r : Registry} {e : Entity} {t : ActionTree} {p : PlannedLevel}

/-- Every condition of the plan of a tree has the operator and the operand of a filter of the tree. -/
theorem exists_constraint_of_mem (hkeys : t.Everywhere ActionTree.KeysDiffer) (h : t.plan r e = .ok p)
    {cc : ColumnCondition} (hcc : cc ∈ p.allConditions) :
    ∃ c ∈ t.constraints, c.operator = cc.operator ∧ c.value = cc.value := by
  induction t, hkeys using ActionTree.pushDown_induction generalizing e p with
  | step t hkeys ih =>
    rcases mem_allConditions.1 hcc with ⟨j, hj, hcc⟩ | hcc
    · obtain ⟨label, child, hp, rel, l, ⟨d, _, _, hl⟩, hj⟩ := (mem_relations_plan hkeys.here h).1 hj
      have hlevel : cc ∈ l.allConditions := by
        obtain ⟨_, _, hj | ⟨_, hj, _⟩⟩ := level_of_mem_joinsOf hj
        · rw [← hj]
          exact hcc
        · rw [hj] at hcc
          exact mem_allConditions_of_onlyConditions hcc
      obtain ⟨c, hc, hsame⟩ := ih _ hp hl hlevel
      exact ⟨c.under label, constraint_of_pushDown hkeys.here hp hc, hsame⟩
    · obtain ⟨f, hf, _, hsame⟩ := (mem_conditions_of_plan h).1 ⟨cc, hcc, rfl⟩
      refine ⟨f.constraint, mem_constraints.2 (.inl ⟨f, hf, rfl⟩), ?_⟩
      rw [hsame]
      exact ⟨rfl, rfl⟩

mutual

/-- What a plan asks for, it asks for by a condition. -/
theorem exists_condition_of_mem : ∀ {p : PlannedLevel} {c : Constraint}, c ∈ p.constraints →
    ∃ cc ∈ p.allConditions, cc.operator = c.operator ∧ cc.value = c.value
  | ⟨_, _, _, conditions, _, _, _, relations⟩, c, h => by
    rw [PlannedLevel.constraints, List.mem_append] at h
    rw [PlannedLevel.allConditions]
    rcases h with h | h
    · obtain ⟨cc, hcc, rfl⟩ := List.mem_map.1 h
      exact ⟨cc, List.mem_append_right _ hcc, rfl, rfl⟩
    · obtain ⟨cc, hcc, hsame⟩ := exists_condition_of_mem_join h
      exact ⟨cc, List.mem_append_left _ hcc, hsame⟩

theorem exists_condition_of_mem_join : ∀ {joins : List (JoinedLevel PlannedLevel)} {outer : List String}
    {c : Constraint}, c ∈ joinConstraints outer joins →
      ∃ cc ∈ joinConditions joins, cc.operator = c.operator ∧ cc.value = c.value
  | ⟨label, _, _, level⟩ :: rest, outer, c, h => by
    have hlater (h : c ∈ joinConstraints outer rest) :
        ∃ cc ∈ level.allConditions ++ joinConditions rest, cc.operator = c.operator ∧ cc.value = c.value := by
      obtain ⟨cc, hcc, hsame⟩ := exists_condition_of_mem_join h
      exact ⟨cc, List.mem_append_right _ hcc, hsame⟩
    rw [joinConstraints] at h
    rw [joinConditions]
    split at h
    · exact hlater h
    · rcases List.mem_append.1 h with h | h
      · obtain ⟨d, hd, rfl⟩ := List.mem_map.1 h
        obtain ⟨cc, hcc, hsame⟩ := exists_condition_of_mem hd
        exact ⟨cc, List.mem_append_left _ hcc, hsame⟩
      · exact hlater h

end

end Filters

/-! ## Lists in lists -/

/-- Whether a value is a list that holds a list. -/
def Value.nestsList : Value → Bool
  | .list items => items.any Value.isList
  | _ => false

/-- Whether something is asked to be an element of a list that holds a list. -/
def Constraint.nestsList (c : Constraint) : Bool := c.operator == .oneOf && c.value.nestsList

section Values

variable {v w : Value}

theorem Value.nestsList_of_scalar (h : v.isList = false) : v.nestsList = false := by
  cases v with
  | list items => cases h
  | _ => rfl

theorem Value.any_isList_eq_of_sameItems {xs ys : List Value} (h : sameItems xs ys = true) :
    xs.any isList = ys.any isList := by
  have hkinds (items : List Value) : items.any isList = (items.map kind).any (· == .list) := by
    rw [List.any_map]
    rfl
  rw [hkinds, hkinds, kinds_eq_of_sameItems h]

theorem Value.nestsList_eq_of_same (h : v.same w = true) : v.nestsList = w.nestsList := by
  have hkind : v.isList = w.isList := isList_eq_of_same h
  cases v with
  | list xs =>
    cases w with
    | list ys => exact any_isList_eq_of_sameItems h
    | _ => cases hkind
  | _ => rw [nestsList_of_scalar rfl, nestsList_of_scalar hkind.symm]

end Values

theorem Constraint.Matches.nestsList {c d : Constraint} (h : c.Matches d) : c.nestsList = d.nestsList := by
  obtain ⟨_, hop, hvalue⟩ := h
  unfold Constraint.nestsList
  rw [hop]
  rcases hvalue with hvalue | hvalue
  · rw [hvalue]
  · rw [Value.nestsList_eq_of_same hvalue]

theorem isList_of_compareExpr {column e : Expr} {op : Operator} {sqlOp : BinaryOperator} {value : Value}
    (h : compareExpr column op sqlOp value = .ok e) : value.isList = false := by
  unfold compareExpr at h
  split at h
  · cases h
  · rename_i hlist
    exact Bool.eq_false_iff.2 hlist

/-- Of a condition that has a test, a list is bound iff something is looked for in a list that holds a list. -/
theorem bindsList_condition_iff {table : String} {cc : ColumnCondition} {e : Expr}
    (h : conditionExpr table cc = .ok e) :
    (∃ v ∈ cc.bindings, v.isList = true) ↔ cc.constraint.nestsList = true := by
  obtain ⟨field, op, value⟩ := cc
  -- an operand that is bound as it is, is no list
  have hscalar (hlist : value.isList = false) : ¬∃ v ∈ [value], v.isList = true := by
    rintro ⟨v, hv, htrue⟩
    cases List.mem_singleton.1 hv
    rw [hlist] at htrue
    cases htrue
  cases op with
  | compare comparison => exact iff_of_false (hscalar (isList_of_compareExpr h)) Bool.false_ne_true
  | like => exact iff_of_false (hscalar (isList_of_compareExpr h)) Bool.false_ne_true
  | ilike =>
    simp only [conditionExpr] at h
    split at h
    · cases h
    · rename_i hlist
      exact iff_of_false (hscalar (Bool.eq_false_iff.2 hlist)) Bool.false_ne_true
  | oneOf =>
    cases value with
    | list items => exact List.any_eq_true.symm
    | _ => exact iff_of_false (hscalar rfl) Bool.false_ne_true
  | isNull =>
    refine iff_of_false ?_ Bool.false_ne_true
    rintro ⟨_, hv, _⟩
    cases hv

/-! ## Queries -/

mutual

/-- In a level that compiles, every condition of all its levels has a test. -/
theorem exists_test_of_select : ∀ {l : PlannedLevel} {n : Nat} {position : Standing} {s : Select},
    l.select n position = .ok s → ∀ cc ∈ l.allConditions, ∃ table e, conditionExpr table cc = .ok e
  | ⟨_, _, _, _, _, _, _, _⟩, n, _, _, h, cc, hcc => by
    obtain ⟨as, cs, has, hcs, _⟩ := PlannedLevel.select_eq_ok.1 h
    rw [PlannedLevel.allConditions, List.mem_append] at hcc
    rcases hcc with hcc | hcc
    · exact exists_test_of_attachments has cc hcc
    · obtain ⟨e, _, he⟩ := exists_mem_of_mapM_eq_ok hcs hcc
      exact ⟨tableAlias n, e, he⟩

theorem exists_test_of_attachments : ∀ {joins : List (JoinedLevel PlannedLevel)} {entity : Entity} {table : String}
    {n : Nat} {as : List Attachment}, attachments entity table n joins = .ok as →
      ∀ cc ∈ joinConditions joins, ∃ table e, conditionExpr table cc = .ok e
  | [], _, _, _, _, _, _, hcc => nomatch hcc
  | ⟨_, _, _, _⟩ :: _, _, _, _, _, h, cc, hcc => by
    obtain ⟨_, inner, later, hinner, hlater, _⟩ := attachments_cons_eq_ok.1 h
    rw [joinConditions, List.mem_append] at hcc
    rcases hcc with hcc | hcc
    · exact exists_test_of_select hinner cc hcc
    · exact exists_test_of_attachments hlater cc hcc

end

/-- The query of a plan binds a list iff a condition of the plan looks for something in a list that holds a list. -/
theorem bindsList_query_iff {p : PlannedLevel} {q : Query} (h : p.query = .ok q) :
    (∃ v ∈ q.statement.params, v.isList = true) ↔ ∃ cc ∈ p.allConditions, cc.constraint.nestsList = true := by
  obtain ⟨inner, hinner, _⟩ := PlannedLevel.query_eq_ok.1 h
  have htest := exists_test_of_select hinner
  rw [params_query h, bindings_eq_flatMap]
  constructor
  · rintro ⟨v, hv, hlist⟩
    obtain ⟨cc, hcc, hv⟩ := List.mem_flatMap.1 hv
    obtain ⟨_, _, htest⟩ := htest cc hcc
    exact ⟨cc, hcc, (bindsList_condition_iff htest).1 ⟨v, hv, hlist⟩⟩
  · rintro ⟨cc, hcc, hnests⟩
    obtain ⟨_, _, htest⟩ := htest cc hcc
    obtain ⟨v, hv, hlist⟩ := (bindsList_condition_iff htest).2 hnests
    exact ⟨v, List.mem_flatMap.2 ⟨cc, hcc, hv⟩, hlist⟩

/-- **Lists are bound only out of lists.** A query has a list among its parameters iff a filter of its tree, at any
level, looks for something in a list that holds a list; all parameters are scalars otherwise. -/
theorem bindsList_iff {r : Registry} {e : Entity} {t : ActionTree} {q : Query}
    (hkeys : t.Everywhere ActionTree.KeysDiffer) (h : t.compile r e = .ok q) :
    (∃ v ∈ q.statement.params, v.isList = true) ↔ ∃ c ∈ t.constraints, c.nestsList = true := by
  obtain ⟨p, hp, hquery⟩ := compile_eq_ok.1 h
  rw [bindsList_query_iff hquery]
  constructor
  · rintro ⟨cc, hcc, hnests⟩
    obtain ⟨c, hc, hop, hvalue⟩ := exists_constraint_of_mem hkeys hp hcc
    refine ⟨c, hc, ?_⟩
    rw [Constraint.nestsList, hop, hvalue]
    exact hnests
  · rintro ⟨c, hc, hnests⟩
    obtain ⟨d, hd, hmatches⟩ := (constraints_of_plan hkeys hp).2 c hc
    obtain ⟨cc, hcc, hop, hvalue⟩ := exists_condition_of_mem hd
    refine ⟨cc, hcc, ?_⟩
    rw [hmatches.nestsList, Constraint.nestsList, ← hop, ← hvalue] at hnests
    exact hnests

theorem bindsList_iff_draft : tasksWithDraft.Everywhere ActionTree.KeysDiffer ∧
    ∃ q, tasksWithDraft.compile taskRegistry taskEntity = .ok q ∧
      ((∃ v ∈ q.statement.params, v.isList = true) ↔ ∃ c ∈ tasksWithDraft.constraints, c.nestsList = true) ∧
      ∀ v ∈ q.statement.params, v.isList = false := by
  have hkeys : tasksWithDraft.Everywhere ActionTree.KeysDiffer := by
    refine .intro (List.nodup_singleton _) fun p hp => ?_
    cases List.mem_singleton.1 hp
    exact .intro List.nodup_nil nofun
  have hflat : ¬∃ c ∈ tasksWithDraft.constraints, c.nestsList = true := by decide
  obtain ⟨q, hq⟩ : ∃ q, tasksWithDraft.compile taskRegistry taskEntity = .ok q := ⟨_, rfl⟩
  have hiff := bindsList_iff hkeys hq
  refine ⟨hkeys, q, hq, hiff, fun v hv => Bool.eq_false_iff.2 fun hlist => hflat (hiff.1 ⟨v, hv, hlist⟩)⟩

/-- Tasks whose label is in a list of lists. -/
def tasksWithNestedLabels : ActionTree :=
  { ActionTree.empty with filters := [⟨⟨[], "label"⟩, .oneOf, .list [.list [.string "a"], .list [.int 1]]⟩] }

/-- A list of lists passes validation, and the query binds the lists in it. -/
theorem validates_nestedLabels : validate taskRegistry taskEntity tasksWithNestedLabels = .ok () ∧
    ∃ q, tasksWithNestedLabels.compile taskRegistry taskEntity = .ok q ∧
      q.statement.params = [.list [.string "a"], .list [.int 1]] ∧ ∃ v ∈ q.statement.params, v.isList = true := by
  obtain ⟨q, hq, hparams⟩ : ∃ q, tasksWithNestedLabels.compile taskRegistry taskEntity = .ok q ∧
      q.statement.params = [.list [.string "a"], .list [.int 1]] := ⟨_, rfl, rfl⟩
  refine ⟨rfl, q, hq, hparams, .list [.string "a"], ?_, rfl⟩
  rw [hparams]
  exact List.mem_cons_self

end TreeQuery
