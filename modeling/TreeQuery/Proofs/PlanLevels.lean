import Mathlib.Data.List.Basic
import TreeQuery.Proofs.Planning
import TreeQuery.Proofs.PushDown

/-!
# Levels of plans

What the levels of a plan have in common. The joins of a planned level are those of its branches (`mem_planBranches`);
for the plan of a tree these are the levels behind its relations, after filters are handed down (`mem_relations_plan`).
So a property of planned levels that follows from one of the tree's levels holds everywhere in the plan
(`everywhere_plan`), if the copies that are left for their conditions keep it.
-/

namespace TreeQuery

open Outcome

variable {r : Registry} {e : Entity}

/-! ## Joins -/

/-- A branch of a level leads through a relationship to a level with a plan. -/
def Branch.PlansTo (r : Registry) (e : Entity) (b : Branch RoutedTree) (rel : Relationship) (l : PlannedLevel) : Prop :=
  ∃ d, e.relationship? b.label = some rel ∧ r.entity? rel.target = some d ∧ b.level.plan r d = .ok l

/-- The joins of a level are those of its branches. -/
theorem mem_planBranches {branches : List (Branch RoutedTree)} {joins : List (JoinedLevel PlannedLevel)}
    (h : RoutedTree.planBranches r e branches = .ok joins) {j : JoinedLevel PlannedLevel} :
    j ∈ joins ↔ ∃ b ∈ branches, ∃ rel l, b.PlansTo r e rel l ∧ j ∈ joinsOf b.label rel b.restricts l := by
  induction branches generalizing joins with
  | nil => cases h; simp
  | cons b rest ih =>
    obtain ⟨label, restricts, level⟩ := b
    obtain ⟨rel, d, l, later, hrel, hd, hl, hlater, rfl⟩ := RoutedTree.planBranches_cons_eq_ok.1 h
    rw [List.mem_append, ih hlater, List.exists_mem_cons_iff]
    refine or_congr_left ⟨fun hj => ⟨rel, l, ⟨d, hrel, hd, hl⟩, hj⟩, ?_⟩
    rintro ⟨rel', l', ⟨d', hrel', hd', hl'⟩, hj⟩
    cases hrel.symm.trans hrel'
    cases hd.symm.trans hd'
    cases hl.symm.trans hl'
    exact hj

/-- Every branch of a planned level leads to a level with a plan. -/
theorem exists_plansTo {branches : List (Branch RoutedTree)} {joins : List (JoinedLevel PlannedLevel)}
    (h : RoutedTree.planBranches r e branches = .ok joins) {b : Branch RoutedTree} (hb : b ∈ branches) :
    ∃ rel l, b.PlansTo r e rel l := by
  induction branches generalizing joins with
  | nil => cases hb
  | cons b' rest ih =>
    obtain ⟨label, restricts, level⟩ := b'
    obtain ⟨rel, d, l, later, hrel, hd, hl, hlater, rfl⟩ := RoutedTree.planBranches_cons_eq_ok.1 h
    rcases List.mem_cons.1 hb with rfl | hb
    · exact ⟨rel, l, d, hrel, hd, hl⟩
    · exact ih hlater hb

/-- A level behind a relation is joined as a whole; and if it is joined by its conditions alone, it is so besides. -/
theorem level_of_mem_joinsOf {label : String} {rel : Relationship} {restricts : Bool} {l : PlannedLevel}
    {j : JoinedLevel PlannedLevel} (h : j ∈ joinsOf label rel restricts l) :
    j.label = label ∧ j.relationship = rel ∧ (j.level = l ∨
      j.join = .inner ∧ j.level = l.onlyConditions ∧ ⟨label, rel, .outer, l⟩ ∈ joinsOf label rel restricts l) := by
  unfold joinsOf at h ⊢
  split at h
  · cases List.mem_singleton.1 h
    exact ⟨rfl, rfl, .inl rfl⟩
  · rename_i hrestricts
    rw [if_neg hrestricts]
    split at h
    · rename_i hpaged
      rw [if_pos hpaged]
      rcases List.mem_pair.1 h with rfl | rfl
      · exact ⟨rfl, rfl, .inr ⟨rfl, rfl, List.mem_pair.2 (.inr rfl)⟩⟩
      · exact ⟨rfl, rfl, .inl rfl⟩
    · cases List.mem_singleton.1 h
      exact ⟨rfl, rfl, .inl rfl⟩

/-- A level behind a relation is joined outer as a whole, or in no other way than inner as a whole. -/
theorem joinsOf_outer_or_inner (label : String) (rel : Relationship) (restricts : Bool) (l : PlannedLevel) :
    ⟨label, rel, .outer, l⟩ ∈ joinsOf label rel restricts l ∨
      joinsOf label rel restricts l = [⟨label, rel, .inner, l⟩] := by
  unfold joinsOf
  split
  · exact .inl (List.mem_singleton_self _)
  · split
    · exact .inl (List.mem_pair.2 (.inr rfl))
    · exact .inr rfl

/-! ## Plans of trees -/

section Plans

variable {t : ActionTree} {p : PlannedLevel}

theorem entity_of_plan (h : t.plan r e = .ok p) : p.entity = e := by
  obtain ⟨_, _, _, _, _, _, _, _, rfl⟩ := RoutedTree.plan_eq_ok.1 h
  rfl

theorem output_of_plan (h : t.plan r e = .ok p) : p.output = t.select.isOutput := by
  obtain ⟨_, _, _, _, _, _, _, _, rfl⟩ := RoutedTree.plan_eq_ok.1 h
  rw [ActionTree.select_route]

/-- A planned level is paged as the level of the tree is. -/
theorem paging_of_plan (h : t.plan r e = .ok p) : p.limit = t.limit ∧ p.offset = t.offset := by
  obtain ⟨_, _, _, _, _, _, _, _, rfl⟩ := RoutedTree.plan_eq_ok.1 h
  rw [ActionTree.route_eq]
  exact ⟨rfl, rfl⟩

/-- The conditions of a planned level are those of the filters of the level that are not dotted. -/
theorem conditions_of_plan (h : t.plan r e = .ok p) :
    (plainConditions t.filters).mapM (columnCondition e) = .ok p.conditions := by
  obtain ⟨conditions, _, _, _, hconditions, _, _, _, rfl⟩ := RoutedTree.plan_eq_ok.1 h
  rw [ActionTree.route_eq] at hconditions
  exact hconditions

theorem planBranches_plan (hkeys : t.KeysDiffer) (h : t.plan r e = .ok p) :
    RoutedTree.planBranches r e (t.pushDown.map (ActionTree.branchOf (heads t.filters))) = .ok p.relations := by
  obtain ⟨_, _, _, relations, _, _, _, hrelations, rfl⟩ := RoutedTree.plan_eq_ok.1 h
  rw [ActionTree.branches_route hkeys] at hrelations
  exact hrelations

/-- A level behind a relation, after filters are handed down, leads through a relationship to a level with a plan. -/
def PlansBehind (r : Registry) (e : Entity) (label : String) (child : ActionTree) (rel : Relationship)
    (l : PlannedLevel) : Prop :=
  ∃ d, e.relationship? label = some rel ∧ r.entity? rel.target = some d ∧ child.plan r d = .ok l

/-- The joins of a planned level are those of the levels behind the relations of its tree, after the tree has handed
its filters down. -/
theorem mem_relations_plan (hkeys : t.KeysDiffer) (h : t.plan r e = .ok p) {j : JoinedLevel PlannedLevel} :
    j ∈ p.relations ↔ ∃ label child, (label, child) ∈ t.pushDown ∧ ∃ rel l, PlansBehind r e label child rel l ∧
      j ∈ joinsOf label rel (decide (label ∈ heads t.filters)) l := by
  rw [mem_planBranches (planBranches_plan hkeys h)]
  constructor
  · rintro ⟨b, hb, rel, l, hl, hj⟩
    obtain ⟨⟨label, child⟩, hp, rfl⟩ := List.mem_map.1 hb
    exact ⟨label, child, hp, rel, l, hl, hj⟩
  · rintro ⟨label, child, hp, rel, l, hl, hj⟩
    exact ⟨_, List.mem_map_of_mem hp, rel, l, hl, hj⟩

theorem PlansBehind.unique {label : String} {child : ActionTree} {rel rel' : Relationship} {l l' : PlannedLevel}
    (h : PlansBehind r e label child rel l) (h' : PlansBehind r e label child rel' l') : rel = rel' ∧ l = l' := by
  obtain ⟨d, hrel, hd, hl⟩ := h
  obtain ⟨d', hrel', hd', hl'⟩ := h'
  cases hrel.symm.trans hrel'
  cases hd.symm.trans hd'
  cases hl.symm.trans hl'
  exact ⟨rfl, rfl⟩

theorem exists_plansBehind (hkeys : t.KeysDiffer) (h : t.plan r e = .ok p) {label : String} {child : ActionTree}
    (hp : (label, child) ∈ t.pushDown) : ∃ rel l, PlansBehind r e label child rel l :=
  exists_plansTo (planBranches_plan hkeys h) (List.mem_map_of_mem hp)

end Plans

/-! ## Properties of all levels -/

namespace PlannedLevel

/-- A property of a planned level and of all levels that are joined behind it. -/
inductive Everywhere (P : PlannedLevel → Prop) : PlannedLevel → Prop
  | intro {l : PlannedLevel} (here : P l) (inside : ∀ j ∈ l.relations, Everywhere P j.level) : Everywhere P l

theorem relations_onlyConditions (l : PlannedLevel) : l.onlyConditions.relations = onlyRestricting l.relations := by
  cases l
  rfl

theorem mem_onlyRestricting {joins : List (JoinedLevel PlannedLevel)} {j : JoinedLevel PlannedLevel} :
    j ∈ onlyRestricting joins ↔ ∃ k ∈ joins, k.join = .inner ∧ j = { k with level := k.level.onlyConditions } := by
  induction joins with
  | nil => simp [onlyRestricting]
  | cons k rest ih =>
    obtain ⟨label, rel, kind, level⟩ := k
    rw [onlyRestricting, List.exists_mem_cons_iff]
    split
    · rename_i hkind
      subst hkind
      rw [List.mem_cons, ih]
      simp
    · rename_i hkind
      rw [ih]
      simp [hkind]

/-- What leaving a level for its conditions keeps, it keeps everywhere. -/
theorem Everywhere.onlyConditions {P : PlannedLevel → Prop} (hP : ∀ l, P l → P l.onlyConditions) {l : PlannedLevel}
    (h : l.Everywhere P) : l.onlyConditions.Everywhere P := by
  induction h with
  | intro here _ ih =>
    refine .intro (hP _ here) fun j hj => ?_
    rw [relations_onlyConditions] at hj
    obtain ⟨k, hk, _, rfl⟩ := mem_onlyRestricting.1 hj
    exact ih k hk

end PlannedLevel

/-- A property of planned levels holds everywhere in the plan of a tree, if it follows from one of the tree's levels
that adding filters keeps. -/
theorem everywhere_plan {Q : ActionTree → Prop} {P : PlannedLevel → Prop} (hnew : ∀ name, Q (.unselected name))
    (hadd : ∀ t f, Q t → Q (t.addFilter f)) (honly : ∀ l, P l → P l.onlyConditions)
    (hplan : ∀ {t : ActionTree} {e : Entity} {p : PlannedLevel}, t.KeysDiffer → Q t → (∀ q ∈ t.pushDown, Q q.2) →
      t.plan r e = .ok p → P p)
    {t : ActionTree} (hkeys : t.Everywhere ActionTree.KeysDiffer) (ht : t.Everywhere Q) {p : PlannedLevel}
    (h : t.plan r e = .ok p) : p.Everywhere P := by
  induction t, hkeys using ActionTree.pushDown_induction generalizing e p with
  | step t hkeys ih =>
    have hbelow := ht.pushDown hkeys.here hnew hadd
    refine .intro (hplan hkeys.here ht.here (fun q hq => (hbelow q hq).here) h) fun j hj => ?_
    obtain ⟨label, child, hp, rel, l, ⟨d, _, _, hl⟩, hj⟩ := (mem_relations_plan hkeys.here h).1 hj
    have hlevel : l.Everywhere P := ih _ hp (hbelow _ hp) hl
    obtain ⟨_, _, hj | ⟨_, hj, _⟩⟩ := level_of_mem_joinsOf hj
    · rw [hj]
      exact hlevel
    · rw [hj]
      exact hlevel.onlyConditions honly

end TreeQuery
