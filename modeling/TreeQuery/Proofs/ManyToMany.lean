import TreeQuery.Proofs.Planning

/-!
# Many-to-many relationships on the way to a plan

Whether a query speaks of a many-to-many relationship, by selecting it or by filtering through it, can be asked of its
tree (`ActionTree.crossesMany`), of the tree with its filters at their destination (`RoutedTree.crossesMany`) and of
its plan (`PlannedLevel.crossesMany`). The answer is the same each time: routing keeps it (`crossesMany_route`), and so
does planning (`crossesMany_of_plan`), although a plan may hold a relation twice.
-/

namespace TreeQuery

open Outcome

/-! ## The question -/

/-- Whether a relation of an entity is many-to-many, or leads to an entity of which `beyond` holds. -/
def Registry.crosses (r : Registry) (e : Entity) (label : String) (beyond : Entity → Bool) : Bool :=
  (e.relationship? label).any fun rel => rel.direction == .manyToMany || (r.entity? rel.target).any beyond

/-- Whether a path of relations goes through a many-to-many relationship. -/
def Registry.pathCrossesMany (r : Registry) : List String → Entity → Bool
  | [], _ => false
  | head :: via, e => r.crosses e head (r.pathCrossesMany via)

mutual

/-- Whether a relation or a filter of a tree goes through a many-to-many relationship. -/
def ActionTree.crossesMany (r : Registry) (e : Entity) : ActionTree → Bool
  | ⟨_, _, filters, _, _, _, relations⟩ =>
    filters.any (fun f => r.pathCrossesMany f.path.via e) || relationsCrossMany r e relations

/-- Whether one of some relations is many-to-many, or the level behind it speaks of such a relationship. -/
def relationsCrossMany (r : Registry) (e : Entity) : List (String × ActionTree) → Bool
  | [] => false
  | (label, child) :: rest =>
    r.crosses e label (fun d => child.crossesMany r d) || relationsCrossMany r e rest

end

mutual

/-- Whether a branch of a routed tree goes through a many-to-many relationship. -/
def RoutedTree.crossesMany (r : Registry) (e : Entity) : RoutedTree → Bool
  | ⟨_, _, _, _, _, branches⟩ => branchesCrossMany r e branches

/-- Whether one of some branches is many-to-many, or the level behind it has such a branch. -/
def branchesCrossMany (r : Registry) (e : Entity) : List (Branch RoutedTree) → Bool
  | [] => false
  | ⟨label, _, level⟩ :: rest =>
    r.crosses e label (fun d => level.crossesMany r d) || branchesCrossMany r e rest

end

mutual

/-- Whether a join of a plan goes through a many-to-many relationship. -/
def PlannedLevel.crossesMany : PlannedLevel → Bool
  | ⟨_, _, _, _, _, _, _, relations⟩ => joinsCrossMany relations

/-- Whether one of some joins is many-to-many, or the level behind it has such a join. -/
def joinsCrossMany : List (JoinedLevel PlannedLevel) → Bool
  | [] => false
  | ⟨_, relationship, _, level⟩ :: rest =>
    (relationship.direction == .manyToMany || level.crossesMany) || joinsCrossMany rest

end

/-! ## Routing -/

section Routing

variable {r : Registry} {e : Entity}

theorem Registry.crosses_or (label : String) (p q : Entity → Bool) :
    r.crosses e label (fun d => p d || q d) = (r.crosses e label p || r.crosses e label q) := by
  unfold Registry.crosses
  cases e.relationship? label with
  | none => rfl
  | some rel =>
    simp only [Option.any_some]
    cases rel.direction == .manyToMany with
    | true => rfl
    | false => cases r.entity? rel.target <;> rfl

/-- Changing the level behind a relation adds what the change adds. -/
theorem branchesCrossMany_restrict {label : String} {f : RoutedTree → RoutedTree} {p : Entity → Bool}
    (hf : ∀ t d, (f t).crossesMany r d = (t.crossesMany r d || p d)) : ∀ branches : List (Branch RoutedTree),
    branchesCrossMany r e (RoutedTree.restrict label f branches) =
      (branchesCrossMany r e branches || r.crosses e label p)
  | [] => by
    have hnew : (fun d => (f RoutedTree.unselected).crossesMany r d) = p := by
      funext d
      rw [hf]
      rfl
    simp only [RoutedTree.restrict, branchesCrossMany, hnew, Bool.or_false, Bool.false_or]
  | ⟨label', restricts, level⟩ :: rest => by
    unfold RoutedTree.restrict
    by_cases h : label' = label
    · subst h
      simp only [↓reduceIte, branchesCrossMany, hf, Registry.crosses_or]
      rw [Bool.or_right_comm]
    · simp only [h, ↓reduceIte, branchesCrossMany, branchesCrossMany_restrict hf rest, Bool.or_assoc]

/-- Placing a condition adds the relations on its way. -/
theorem crossesMany_place (c : Condition) : ∀ (via : List String) (t : RoutedTree) (e : Entity),
    (t.place c via).crossesMany r e = (t.crossesMany r e || r.pathCrossesMany via e)
  | [], ⟨_, _, _, _, _, _⟩, _ => by
    simp only [RoutedTree.place, RoutedTree.crossesMany, Registry.pathCrossesMany, Bool.or_false]
  | head :: via, ⟨_, _, _, _, _, branches⟩, e => by
    simp only [RoutedTree.place, RoutedTree.crossesMany, Registry.pathCrossesMany]
    exact branchesCrossMany_restrict (fun t d => crossesMany_place c via t d) branches

theorem crossesMany_placeAll : ∀ (filters : List Filter) (t : RoutedTree),
    (t.placeAll filters).crossesMany r e =
      (t.crossesMany r e || filters.any fun f => r.pathCrossesMany f.path.via e)
  | [], t => by simp [RoutedTree.placeAll]
  | f :: filters, t => by
    have ih := crossesMany_placeAll filters (if f.path.isDotted then t.place f.condition f.path.via else t)
    rw [show t.placeAll (f :: filters) = RoutedTree.placeAll _ filters from rfl, ih, List.any_cons, ← Bool.or_assoc]
    congr 1
    -- a plain filter is not placed, and its path crosses nothing
    by_cases h : f.path.isDotted
    · rw [if_pos h, crossesMany_place]
    · have hvia : f.path.via = [] := by simpa [FieldPath.isDotted] using h
      rw [if_neg h, hvia, Registry.pathCrossesMany, Bool.or_false]

mutual

/-- Routing keeps what a tree speaks of. -/
theorem crossesMany_route : ∀ (t : ActionTree) (e : Entity), t.route.crossesMany r e = t.crossesMany r e
  | ⟨_, _, filters, _, _, _, relations⟩, e => by
    rw [ActionTree.route, crossesMany_placeAll, RoutedTree.crossesMany, crossesMany_routeRelations relations e,
      ActionTree.crossesMany, Bool.or_comm]

theorem crossesMany_routeRelations : ∀ (relations : List (String × ActionTree)) (e : Entity),
    branchesCrossMany r e (ActionTree.routeRelations relations) = relationsCrossMany r e relations
  | [], _ => rfl
  | (label, child) :: rest, e => by
    have hchild : (fun d => child.route.crossesMany r d) = fun d => child.crossesMany r d :=
      funext fun d => crossesMany_route child d
    rw [ActionTree.routeRelations, branchesCrossMany, hchild, crossesMany_routeRelations rest e, relationsCrossMany]

end

end Routing

/-! ## Planning -/

section Planning

variable {r : Registry} {e : Entity}

theorem joinsCrossMany_append (a b : List (JoinedLevel PlannedLevel)) :
    joinsCrossMany (a ++ b) = (joinsCrossMany a || joinsCrossMany b) := by
  induction a with
  | nil => rfl
  | cons j a ih => simp only [List.cons_append, joinsCrossMany, ih, Bool.or_assoc]

mutual

/-- What is left of a level for its conditions crosses nothing new. -/
theorem crossesMany_of_onlyConditions : ∀ l : PlannedLevel, l.onlyConditions.crossesMany = true → l.crossesMany = true
  | ⟨_, _, _, _, _, _, _, relations⟩, h => by
    rw [PlannedLevel.onlyConditions, PlannedLevel.crossesMany] at h
    exact joinsCrossMany_of_onlyRestricting relations h

theorem joinsCrossMany_of_onlyRestricting : ∀ joins : List (JoinedLevel PlannedLevel),
    joinsCrossMany (PlannedLevel.onlyRestricting joins) = true → joinsCrossMany joins = true
  | [], h => h
  | ⟨label, relationship, join, level⟩ :: rest, h => by
    rw [joinsCrossMany, Bool.or_eq_true, Bool.or_eq_true]
    rw [PlannedLevel.onlyRestricting] at h
    split at h
    · rw [joinsCrossMany, Bool.or_eq_true, Bool.or_eq_true] at h
      exact h.imp (Or.imp_right (crossesMany_of_onlyConditions level)) (joinsCrossMany_of_onlyRestricting rest)
    · exact .inr (joinsCrossMany_of_onlyRestricting rest h)

end

/-- A relation joined twice crosses what it crosses when joined once. -/
theorem joinsCrossMany_joinsOf (label : String) (rel : Relationship) (restricts : Bool) (level : PlannedLevel) :
    joinsCrossMany (joinsOf label rel restricts level) = (rel.direction == .manyToMany || level.crossesMany) := by
  unfold joinsOf
  split
  · simp only [joinsCrossMany, Bool.or_false]
  · split
    · simp only [joinsCrossMany, Bool.or_false]
      cases hg : level.onlyConditions.crossesMany with
      | false => rw [Bool.or_false, ← Bool.or_assoc, Bool.or_self]
      | true => rw [crossesMany_of_onlyConditions level hg, Bool.or_self]
    · simp only [joinsCrossMany, Bool.or_false]

mutual

/-- Planning keeps what a routed tree speaks of. -/
theorem crossesMany_of_plan : ∀ (t : RoutedTree) {e : Entity} {p : PlannedLevel}, t.plan r e = .ok p →
    p.crossesMany = t.crossesMany r e
  | ⟨_, _, _, _, _, branches⟩, _, _, h => by
    obtain ⟨_, _, _, relations, _, _, _, hrelations, rfl⟩ := RoutedTree.plan_eq_ok.1 h
    rw [PlannedLevel.crossesMany, RoutedTree.crossesMany]
    exact joinsCrossMany_of_planBranches branches hrelations

theorem joinsCrossMany_of_planBranches : ∀ (branches : List (Branch RoutedTree)) {e : Entity}
    {joins : List (JoinedLevel PlannedLevel)}, RoutedTree.planBranches r e branches = .ok joins →
    joinsCrossMany joins = branchesCrossMany r e branches
  | [], _, _, h => by cases h; rfl
  | ⟨label, restricts, level⟩ :: rest, e, joins, h => by
    obtain ⟨rel, d, inner, later, hrel, hd, hinner, hlater, rfl⟩ := RoutedTree.planBranches_cons_eq_ok.1 h
    have hlevel := crossesMany_of_plan level hinner
    have hrest := joinsCrossMany_of_planBranches rest hlater
    rw [joinsCrossMany_append, joinsCrossMany_joinsOf, hlevel, hrest, branchesCrossMany, Registry.crosses, hrel,
      Option.any_some, hd, Option.any_some]

end

end Planning

end TreeQuery
