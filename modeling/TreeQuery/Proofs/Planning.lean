import TreeQuery.Plan
import TreeQuery.Proofs.Resolution

/-!
# Planning, step by step

What a plan that succeeds consists of: one equivalence for each function that plans (`plan_eq_ok`,
`planBranches_cons_eq_ok`), and when the names of a level resolve (`exists_columnCondition`, `exists_selectedFields`,
`exists_columnSorting`).
-/

namespace TreeQuery

open Outcome

variable {r : Registry} {e : Entity}

/-! ## Names -/

theorem field?_label {label : String} {f : EntityField} (h : e.field? label = some f) : f.label = label := by
  have hf := List.find?_some h
  exact eq_of_beq hf

theorem exists_requireField {label : String} (h : (e.field? label).isSome = true) :
    ∃ f, requireField e label = .ok f := by
  obtain ⟨f, hf⟩ := Option.isSome_iff_exists.1 h
  exact ⟨f, by rw [requireField, hf]⟩

/-- A condition on a field becomes one on its column. -/
theorem exists_columnCondition {c : Condition} (h : (e.field? c.field).isSome = true) :
    ∃ f, columnCondition e c = .ok ⟨f, c.operator, c.value⟩ := by
  obtain ⟨f, hf⟩ := exists_requireField h
  exact ⟨f, by rw [columnCondition, hf]; rfl⟩

theorem requireField_eq_ok {label : String} {f : EntityField} :
    requireField e label = .ok f ↔ e.field? label = some f := by
  unfold requireField
  cases e.field? label with
  | none => simp
  | some f => simp

/-- The column condition of a condition is on the column of its field, with its operator and its operand. -/
theorem columnCondition_eq_ok {c : Condition} {cc : ColumnCondition} : columnCondition e c = .ok cc ↔
    e.field? c.field = some cc.field ∧ cc.operator = c.operator ∧ cc.value = c.value := by
  rw [columnCondition, bind_eq_ok]
  constructor
  · rintro ⟨f, hf, h⟩
    cases h
    exact ⟨requireField_eq_ok.1 hf, rfl, rfl⟩
  · obtain ⟨f, op, value⟩ := cc
    rintro ⟨hf, rfl, rfl⟩
    exact ⟨f, requireField_eq_ok.2 hf, rfl⟩

theorem exists_namedFields : ∀ (selectors : List Selector) (found : List EntityField),
    (∀ s ∈ selectors, checkSelector e s = .ok ()) → ∃ fields, namedFields e found selectors = .ok fields
  | [], found, _ => ⟨found, rfl⟩
  | .field label :: rest, found, h => by
    obtain ⟨f, hf⟩ := exists_requireField (checkField_eq_ok.1 (h (.field label) List.mem_cons_self))
    obtain ⟨fields, hfields⟩ := exists_namedFields rest (addNew found f) fun s hs => h s (List.mem_cons_of_mem _ hs)
    exact ⟨fields, by rw [namedFields, hf, ok_bind, hfields]⟩
  | .wildcard :: rest, found, h => exists_namedFields rest found fun s hs => h s (List.mem_cons_of_mem _ hs)
  | .exclude _ :: rest, found, h => exists_namedFields rest found fun s hs => h s (List.mem_cons_of_mem _ hs)

theorem exists_selectedFields {select : Selection} (h : ∀ s ∈ select.selectors, checkSelector e s = .ok ()) :
    ∃ fields, selectedFields e select = .ok fields := by
  unfold selectedFields
  split
  · exact ⟨_, rfl⟩
  · exact exists_namedFields _ [] h

theorem exists_columnSorting {sort : Option Sorting} (h : checkSorting e sort = .ok ()) :
    ∃ sorting, columnSorting e sort = .ok sorting := by
  cases sort with
  | none => exact ⟨none, rfl⟩
  | some s =>
    obtain ⟨f, hf⟩ := exists_requireField (checkField_eq_ok.1 h)
    exact ⟨some (f, s.order), by rw [columnSorting, hf]; rfl⟩

/-! ## Levels -/

theorem requireRelationship_eq_ok {label : String} {rel : Relationship} :
    requireRelationship e label = .ok rel ↔ e.relationship? label = some rel := by
  unfold requireRelationship
  cases e.relationship? label with
  | none => simp
  | some rel => simp

/-- A plan holds the entity of its level, the level's branches as joins, and nothing else that joins. -/
theorem RoutedTree.plan_eq_ok {t : RoutedTree} {p : PlannedLevel} : t.plan r e = .ok p ↔
    ∃ conditions fields sort relations, t.conditions.mapM (columnCondition e) = .ok conditions ∧
      selectedFields e t.select = .ok fields ∧ columnSorting e t.sort = .ok sort ∧
      planBranches r e t.branches = .ok relations ∧
      p = ⟨e, t.select.isOutput, fields, conditions, sort, t.limit, t.offset, relations⟩ := by
  obtain ⟨select, conditions, sort, limit, offset, branches⟩ := t
  rw [RoutedTree.plan]
  constructor
  · intro h
    obtain ⟨cs, hcs, h⟩ := bind_eq_ok.1 h
    obtain ⟨fs, hfs, h⟩ := bind_eq_ok.1 h
    obtain ⟨so, hso, h⟩ := bind_eq_ok.1 h
    obtain ⟨rs, hrs, h⟩ := bind_eq_ok.1 h
    cases h
    exact ⟨cs, fs, so, rs, hcs, hfs, hso, hrs, rfl⟩
  · rintro ⟨cs, fs, so, rs, hcs, hfs, hso, hrs, rfl⟩
    rw [hcs, ok_bind, hfs, ok_bind, hso, ok_bind, hrs]
    rfl

/-- A branch is planned by its relationship, its target, and the plan of the level behind it. -/
theorem RoutedTree.planBranches_cons_eq_ok {label : String} {restricts : Bool} {level : RoutedTree}
    {rest : List (Branch RoutedTree)} {joins : List (JoinedLevel PlannedLevel)} :
    planBranches r e (⟨label, restricts, level⟩ :: rest) = .ok joins ↔
      ∃ rel d inner later, e.relationship? label = some rel ∧ r.entity? rel.target = some d ∧
        level.plan r d = .ok inner ∧ planBranches r e rest = .ok later ∧
        joins = joinsOf label rel restricts inner ++ later := by
  rw [planBranches]
  constructor
  · intro h
    obtain ⟨rel, hrel, h⟩ := bind_eq_ok.1 h
    obtain ⟨d, hd, h⟩ := bind_eq_ok.1 h
    obtain ⟨inner, hinner, h⟩ := bind_eq_ok.1 h
    obtain ⟨later, hlater, h⟩ := bind_eq_ok.1 h
    cases h
    exact ⟨rel, d, inner, later, requireRelationship_eq_ok.1 hrel, Registry.target_eq_ok.1 hd, hinner, hlater, rfl⟩
  · rintro ⟨rel, d, inner, later, hrel, hd, hinner, hlater, rfl⟩
    rw [requireRelationship_eq_ok.2 hrel, ok_bind, Registry.target_eq_ok.2 hd, ok_bind, hinner, ok_bind, hlater]
    rfl

end TreeQuery
