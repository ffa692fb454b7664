import TreeQuery.Plan
import TreeQuery.Proofs.Outcome

/-!
# Renaming the values of a query

A renaming of scalars that tells the same values apart as before can be applied to every operand of a tree, the flags
of null tests excepted. The renamed tree is routed and planned to the renamed result of the tree (`route_mapValues`,
`plan_mapValues`): no step looks at a value, but to see whether it is the same as another one.
-/

namespace TreeQuery

open Outcome

/-! ## Renaming values -/

namespace Value

/-- A function on scalars that keeps and reflects sameness. -/
structure Renames (σ : Value → Value) : Prop where
  scalar : ∀ v, v.isList = false → (σ v).isList = false
  same : ∀ v w, v.isList = false → w.isList = false → (σ v).same (σ w) = v.same w

mutual

/-- A value with every scalar in it renamed. -/
def rename (σ : Value → Value) : Value → Value
  | .list items => .list (renameItems σ items)
  | v => σ v

/-- Some values with every scalar in them renamed. -/
def renameItems (σ : Value → Value) : List Value → List Value
  | [] => []
  | v :: rest => v.rename σ :: renameItems σ rest

end

variable {σ : Value → Value}

theorem renameItems_eq_map : ∀ items : List Value, renameItems σ items = items.map (rename σ)
  | [] => rfl
  | v :: rest => by rw [renameItems, renameItems_eq_map rest, List.map_cons]

theorem rename_of_scalar {v : Value} (h : v.isList = false) : v.rename σ = σ v := by
  cases v with
  | list items => cases h
  | _ => rfl

theorem isList_rename (hσ : Renames σ) (v : Value) : (v.rename σ).isList = v.isList := by
  cases hv : v.isList with
  | false => rw [rename_of_scalar hv]; exact hσ.scalar v hv
  | true =>
    cases v with
    | list items => rfl
    | _ => cases hv

theorem same_of_isList_ne {v w : Value} (h : v.isList ≠ w.isList) : v.same w = false :=
  Bool.eq_false_iff.2 fun hsame => h (isList_eq_of_same hsame)

mutual

/-- Renamed values are the same iff the values are. -/
theorem same_rename (hσ : Renames σ) : ∀ v w : Value, (v.rename σ).same (w.rename σ) = v.same w
  | .list xs, .list ys => by simp only [rename, same]; exact sameItems_rename hσ xs ys
  | .list xs, .int _ | .list xs, .float _ | .list xs, .date _ | .list xs, .string _ => by
    rw [same_of_isList_ne, same_of_isList_ne]
    · exact Bool.noConfusion
    · rw [isList_rename hσ, isList_rename hσ]; exact Bool.noConfusion
  | .int _, w | .float _, w | .date _, w | .string _, w => by
    cases hw : w.isList with
    | false => rw [rename_of_scalar rfl, rename_of_scalar hw]; exact hσ.same _ _ rfl hw
    | true =>
      rw [same_of_isList_ne, same_of_isList_ne]
      · rw [hw]; exact Bool.noConfusion
      · rw [isList_rename hσ, isList_rename hσ, hw]; exact Bool.noConfusion

theorem sameItems_rename (hσ : Renames σ) : ∀ xs ys : List Value,
    sameItems (renameItems σ xs) (renameItems σ ys) = sameItems xs ys
  | [], [] | [], _ :: _ | _ :: _, [] => rfl
  | x :: xs, y :: ys => by
    simp only [renameItems, sameItems, same_rename hσ x y, sameItems_rename hσ xs ys]

end

end Value

variable {σ : Value → Value}

/-- The operand of an operator, renamed; a null test keeps its flag. -/
def Operator.renameOperand (σ : Value → Value) (op : Operator) (v : Value) : Value :=
  if op = .isNull then v else v.rename σ

theorem Operator.same_renameOperand (hσ : Value.Renames σ) (op : Operator) (v w : Value) :
    (op.renameOperand σ v).same (op.renameOperand σ w) = v.same w := by
  unfold Operator.renameOperand
  split
  · rfl
  · exact Value.same_rename hσ v w

/-! ## Renaming queries -/

/-- A filter with its operand renamed. -/
def Filter.mapValue (σ : Value → Value) (f : Filter) : Filter :=
  ⟨f.path, f.operator, f.operator.renameOperand σ f.value⟩

mutual

/-- A tree with the operands of all its filters renamed. -/
def ActionTree.mapValues (σ : Value → Value) : ActionTree → ActionTree
  | ⟨name, select, filters, sort, limit, offset, relations⟩ =>
    ⟨name, select, filters.map (Filter.mapValue σ), sort, limit, offset, relationsMapValues σ relations⟩

/-- Some relations with the operands of all their filters renamed. -/
def relationsMapValues (σ : Value → Value) : List (String × ActionTree) → List (String × ActionTree)
  | [] => []
  | (label, child) :: rest => (label, child.mapValues σ) :: relationsMapValues σ rest

end

/-- A condition with its operand renamed. -/
def Condition.mapValue (σ : Value → Value) (c : Condition) : Condition :=
  ⟨c.field, c.operator, c.operator.renameOperand σ c.value⟩

mutual

/-- A routed tree with the operands of all its conditions renamed. -/
def RoutedTree.mapValues (σ : Value → Value) : RoutedTree → RoutedTree
  | ⟨select, conditions, sort, limit, offset, branches⟩ =>
    ⟨select, conditions.map (Condition.mapValue σ), sort, limit, offset, branchesMapValues σ branches⟩

/-- Some branches with the operands of all their conditions renamed. -/
def branchesMapValues (σ : Value → Value) : List (Branch RoutedTree) → List (Branch RoutedTree)
  | [] => []
  | ⟨label, restricts, level⟩ :: rest => ⟨label, restricts, level.mapValues σ⟩ :: branchesMapValues σ rest

end

/-- A condition on a column with its operand renamed. -/
def ColumnCondition.mapValue (σ : Value → Value) (c : ColumnCondition) : ColumnCondition :=
  ⟨c.field, c.operator, c.operator.renameOperand σ c.value⟩

mutual

/-- A plan with the operands of all its conditions renamed. -/
def PlannedLevel.mapValues (σ : Value → Value) : PlannedLevel → PlannedLevel
  | ⟨entity, output, fields, conditions, sort, limit, offset, relations⟩ =>
    ⟨entity, output, fields, conditions.map (ColumnCondition.mapValue σ), sort, limit, offset,
      joinsMapValues σ relations⟩

/-- Some joins with the operands of all their conditions renamed. -/
def joinsMapValues (σ : Value → Value) : List (JoinedLevel PlannedLevel) → List (JoinedLevel PlannedLevel)
  | [] => []
  | ⟨label, relationship, join, level⟩ :: rest =>
    ⟨label, relationship, join, level.mapValues σ⟩ :: joinsMapValues σ rest

end

/-! ## Routing -/

section Routing

theorem Condition.same_mapValue (hσ : Value.Renames σ) (c d : Condition) :
    (c.mapValue σ).same (d.mapValue σ) = c.same d := by
  obtain ⟨field, op, v⟩ := c
  obtain ⟨field', op', w⟩ := d
  unfold Condition.mapValue Condition.same
  by_cases h : op = op'
  · subst h
    rw [Operator.same_renameOperand hσ]
  · rw [show (op == op') = false from beq_false_of_ne h, Bool.and_false, Bool.false_and, Bool.false_and]

theorem addCondition_mapValue (hσ : Value.Renames σ) (conditions : List Condition) (c : Condition) :
    addCondition (conditions.map (Condition.mapValue σ)) (c.mapValue σ) =
      (addCondition conditions c).map (Condition.mapValue σ) := by
  have hany : (conditions.map (Condition.mapValue σ)).any (c.mapValue σ).same = conditions.any c.same := by
    rw [List.any_map]
    exact congrArg conditions.any (funext fun d => Condition.same_mapValue hσ c d)
  unfold addCondition
  rw [hany]
  split
  · rfl
  · rw [List.map_append, List.map_cons, List.map_nil]

/-- If the change of a level is renamed with the level, so is a change behind a relation. -/
theorem restrict_mapValues {label : String} {f g : RoutedTree → RoutedTree}
    (hfg : ∀ t : RoutedTree, g (t.mapValues σ) = (f t).mapValues σ) : ∀ branches : List (Branch RoutedTree),
    RoutedTree.restrict label g (branchesMapValues σ branches) =
      branchesMapValues σ (RoutedTree.restrict label f branches)
  | [] => by
    simp only [branchesMapValues, RoutedTree.restrict, ← hfg]
    rfl
  | ⟨label', restricts, level⟩ :: rest => by
    simp only [branchesMapValues, RoutedTree.restrict]
    split
    · rw [hfg, branchesMapValues]
    · rw [restrict_mapValues hfg rest, branchesMapValues]

theorem place_mapValues (hσ : Value.Renames σ) (c : Condition) : ∀ (via : List String) (t : RoutedTree),
    (t.mapValues σ).place (c.mapValue σ) via = (t.place c via).mapValues σ
  | [], ⟨_, conditions, _, _, _, _⟩ => by
    simp only [RoutedTree.mapValues, RoutedTree.place, addCondition_mapValue hσ]
  | head :: via, ⟨_, _, _, _, _, branches⟩ => by
    simp only [RoutedTree.mapValues, RoutedTree.place]
    rw [restrict_mapValues (place_mapValues hσ c via) branches]

theorem placeAll_mapValues (hσ : Value.Renames σ) : ∀ (filters : List Filter) (t : RoutedTree),
    (t.mapValues σ).placeAll (filters.map (Filter.mapValue σ)) = (t.placeAll filters).mapValues σ
  | [], _ => rfl
  | f :: filters, t => by
    rw [show t.placeAll (f :: filters) =
      RoutedTree.placeAll (if f.path.isDotted then t.place f.condition f.path.via else t) filters from rfl,
      ← placeAll_mapValues hσ filters]
    show RoutedTree.placeAll
      (if f.path.isDotted then (t.mapValues σ).place (f.condition.mapValue σ) f.path.via else t.mapValues σ) _ = _
    rw [place_mapValues hσ, apply_ite (RoutedTree.mapValues σ)]

theorem plainConditions_mapValue (filters : List Filter) :
    plainConditions (filters.map (Filter.mapValue σ)) = (plainConditions filters).map (Condition.mapValue σ) := by
  unfold plainConditions
  rw [List.filter_map, List.map_map, List.map_map]
  rfl

mutual

/-- A renamed tree is routed to the renamed routed tree. -/
theorem route_mapValues (hσ : Value.Renames σ) : ∀ t : ActionTree, (t.mapValues σ).route = t.route.mapValues σ
  | ⟨_, _, filters, _, _, _, relations⟩ => by
    rw [ActionTree.mapValues, ActionTree.route, ActionTree.route, ← placeAll_mapValues hσ, RoutedTree.mapValues,
      plainConditions_mapValue, routeRelations_mapValues hσ relations]

theorem routeRelations_mapValues (hσ : Value.Renames σ) : ∀ relations : List (String × ActionTree),
    ActionTree.routeRelations (relationsMapValues σ relations) =
      branchesMapValues σ (ActionTree.routeRelations relations)
  | [] => rfl
  | (_, child) :: rest => by
    rw [relationsMapValues, ActionTree.routeRelations, route_mapValues hσ child, routeRelations_mapValues hσ rest]
    rfl

end

end Routing

/-! ## Planning -/

section Planning

variable {r : Registry}

theorem columnCondition_mapValue (e : Entity) (c : Condition) :
    columnCondition e (c.mapValue σ) = (columnCondition e c).map (ColumnCondition.mapValue σ) := by
  unfold columnCondition
  rw [map_bind]
  rfl

theorem joinsMapValues_append : ∀ a b : List (JoinedLevel PlannedLevel),
    joinsMapValues σ (a ++ b) = joinsMapValues σ a ++ joinsMapValues σ b
  | [], _ => rfl
  | ⟨_, _, _, _⟩ :: a, b => by
    simp only [List.cons_append, joinsMapValues, joinsMapValues_append a b]

mutual

theorem onlyConditions_mapValues : ∀ l : PlannedLevel,
    (l.mapValues σ).onlyConditions = l.onlyConditions.mapValues σ
  | ⟨_, _, _, _, _, _, _, relations⟩ => by
    simp only [PlannedLevel.mapValues, PlannedLevel.onlyConditions, onlyRestricting_mapValues relations]

theorem onlyRestricting_mapValues : ∀ joins : List (JoinedLevel PlannedLevel),
    PlannedLevel.onlyRestricting (joinsMapValues σ joins) = joinsMapValues σ (PlannedLevel.onlyRestricting joins)
  | [] => rfl
  | ⟨_, _, _, level⟩ :: rest => by
    simp only [joinsMapValues, PlannedLevel.onlyRestricting]
    split
    · rw [joinsMapValues, onlyConditions_mapValues level, onlyRestricting_mapValues rest]
    · exact onlyRestricting_mapValues rest

end

theorem output_mapValues : ∀ l : PlannedLevel, (l.mapValues σ).output = l.output
  | ⟨_, _, _, _, _, _, _, _⟩ => rfl

theorem isPaged_mapValues : ∀ l : PlannedLevel, (l.mapValues σ).isPaged = l.isPaged
  | ⟨_, _, _, _, _, _, _, _⟩ => rfl

/-- Values do not decide how a relation is joined. -/
theorem joinsOf_mapValues (label : String) (rel : Relationship) (restricts : Bool) (level : PlannedLevel) :
    joinsOf label rel restricts (level.mapValues σ) = joinsMapValues σ (joinsOf label rel restricts level) := by
  unfold joinsOf
  rw [output_mapValues, isPaged_mapValues, onlyConditions_mapValues]
  split
  · rfl
  · split <;> rfl

mutual

/-- A renamed routed tree has the renamed plan, or no plan for the same reason. -/
theorem plan_mapValues : ∀ (t : RoutedTree) (e : Entity),
    (t.mapValues σ).plan r e = (t.plan r e).map (PlannedLevel.mapValues σ)
  | ⟨_, conditions, _, _, _, branches⟩, e => by
    have hconditions : (conditions.map (Condition.mapValue σ)).mapM (columnCondition e) =
        (conditions.mapM (columnCondition e)).map (List.map (ColumnCondition.mapValue σ)) := by
      rw [List.mapM_map, ← mapM_map]
      exact congrArg (conditions.mapM ·) (funext fun c => columnCondition_mapValue e c)
    simp only [RoutedTree.mapValues, RoutedTree.plan, hconditions, planBranches_mapValues branches e, bind_map,
      map_bind]
    rfl

theorem planBranches_mapValues : ∀ (branches : List (Branch RoutedTree)) (e : Entity),
    RoutedTree.planBranches r e (branchesMapValues σ branches) =
      (RoutedTree.planBranches r e branches).map (joinsMapValues σ)
  | [], _ => rfl
  | ⟨_, _, level⟩ :: rest, e => by
    simp only [branchesMapValues, RoutedTree.planBranches, plan_mapValues level, planBranches_mapValues rest, bind_map,
      map_bind, joinsOf_mapValues, ← joinsMapValues_append]
    rfl

end

end Planning

end TreeQuery
