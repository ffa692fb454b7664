import TreeQuery.Proofs.PlanLevels

/-!
# No filter is lost

What the filters of a tree ask for, each seen from the root by its path of relations and its field, is what the plan of
the tree asks for at its levels (`constraints_plan`): handing filters down loses none, makes none up and moves none to
another place. Only a filter that says the same as one that is there already is left out, and so a plan asks for nothing
twice at one level if no level of its tree does.
-/

namespace TreeQuery

open Outcome

/-! ## Constraints -/

/-- What a filter asks for, seen from the root: the path is that of its level, then that of the filter. -/
structure Constraint where
  path : List String
  operator : Operator
  value : Value

namespace Constraint

/-- A constraint behind a relation, as seen from the level in front of it. -/
def under (label : String) (c : Constraint) : Constraint := { c with path := label :: c.path }

/-- Two constraints of one path that ask for equal values, or for values that are the same. -/
def Matches (c d : Constraint) : Prop :=
  c.path = d.path ∧ c.operator = d.operator ∧ (c.value = d.value ∨ c.value.same d.value = true)

theorem Matches.refl (c : Constraint) : c.Matches c := ⟨rfl, rfl, .inl rfl⟩

theorem Matches.trans {c d x : Constraint} (hcd : c.Matches d) (hdx : d.Matches x) : c.Matches x := by
  obtain ⟨hpath, hop, hcd⟩ := hcd
  obtain ⟨hpath', hop', hdx⟩ := hdx
  refine ⟨hpath.trans hpath', hop.trans hop', ?_⟩
  rcases hcd with hcd | hcd
  · rw [hcd]
    exact hdx
  · rcases hdx with hdx | hdx
    · rw [← hdx]
      exact .inr hcd
    · exact .inr (Value.same_trans hcd hdx)

theorem Matches.under {c d : Constraint} (h : c.Matches d) (label : String) : (c.under label).Matches (d.under label) :=
  ⟨congrArg (label :: ·) h.1, h.2⟩

end Constraint

/-- What a filter asks for, seen from its level. -/
def Filter.constraint (f : Filter) : Constraint := ⟨f.path.segments, f.operator, f.value⟩

mutual

/-- What the filters of a tree ask for. -/
def ActionTree.constraints : ActionTree → List Constraint
  | ⟨_, _, filters, _, _, _, relations⟩ => filters.map Filter.constraint ++ relationConstraints relations

/-- What the filters behind some relations ask for. -/
def relationConstraints : List (String × ActionTree) → List Constraint
  | [] => []
  | (label, child) :: rest => child.constraints.map (.under label) ++ relationConstraints rest

end

/-- What a condition asks for, seen from its level. -/
def ColumnCondition.constraint (c : ColumnCondition) : Constraint := ⟨[c.field.label], c.operator, c.value⟩

/-- The relations that are joined outer. -/
def outerLabels (joins : List (JoinedLevel PlannedLevel)) : List String :=
  (joins.filter fun j => j.join = .outer).map JoinedLevel.label

mutual

/-- What the conditions of a plan ask for. Of a relation that is joined twice, the outer join counts. -/
def PlannedLevel.constraints : PlannedLevel → List Constraint
  | ⟨_, _, _, conditions, _, _, _, relations⟩ =>
    conditions.map ColumnCondition.constraint ++ joinConstraints (outerLabels relations) relations

/-- What the conditions behind some joins ask for; the relations in `outer` are also joined outer. -/
def joinConstraints (outer : List String) : List (JoinedLevel PlannedLevel) → List Constraint
  | [] => []
  | ⟨label, _, join, level⟩ :: rest =>
    if join = .inner ∧ label ∈ outer then joinConstraints outer rest
    else level.constraints.map (.under label) ++ joinConstraints outer rest

end

/-! ## Constraints of trees -/

section Trees

variable {t : ActionTree} {c : Constraint}

theorem mem_relationConstraints {relations : List (String × ActionTree)} :
    c ∈ relationConstraints relations ↔ ∃ p ∈ relations, ∃ d ∈ p.2.constraints, d.under p.1 = c := by
  induction relations with
  | nil => simp [relationConstraints]
  | cons p rest ih =>
    obtain ⟨label, child⟩ := p
    rw [relationConstraints, List.mem_append, ih, List.exists_mem_cons_iff, List.mem_map]

theorem mem_constraints : c ∈ t.constraints ↔
    (∃ f ∈ t.filters, f.constraint = c) ∨ ∃ p ∈ t.relations, ∃ d ∈ p.2.constraints, d.under p.1 = c := by
  obtain ⟨_, _, filters, _, _, _, relations⟩ := t
  rw [ActionTree.constraints, List.mem_append, mem_relationConstraints, List.mem_map]

theorem Filter.Like.matches {f g : Filter} (h : f.Like g) : f.constraint.Matches g.constraint := by
  rcases h with rfl | h
  · exact .refl _
  · simp only [Filter.same, Bool.and_eq_true, beq_iff_eq] at h
    obtain ⟨⟨hpath, hop⟩, hvalue⟩ := h
    exact ⟨congrArg FieldPath.segments hpath, hop, .inr hvalue⟩

/-- Adding filters adds what they ask for, and nothing else. -/
theorem constraint_of_mem_addFilters {filters : List Filter} (h : c ∈ (t.addFilters filters).constraints) :
    c ∈ t.constraints ∨ ∃ f ∈ filters, c = f.constraint := by
  rw [ActionTree.addFilters_eq, mem_constraints] at h
  rcases h with ⟨f, hf, rfl⟩ | h
  · rcases mem_or_mem_of_mem_addAll hf with hf | hf
    · exact .inl (mem_constraints.2 (.inl ⟨f, hf, rfl⟩))
    · exact .inr ⟨f, hf, rfl⟩
  · exact .inl (mem_constraints.2 (.inr h))

theorem mem_constraints_addFilters (h : c ∈ t.constraints) (filters : List Filter) :
    c ∈ (t.addFilters filters).constraints := by
  rw [mem_constraints] at h
  rw [ActionTree.addFilters_eq, mem_constraints]
  exact h.imp_left fun ⟨f, hf, hc⟩ => ⟨f, mem_addAll_of_mem hf filters, hc⟩

theorem exists_matches_addFilters {filters : List Filter} {f : Filter} (hf : f ∈ filters) (t : ActionTree) :
    ∃ d ∈ (t.addFilters filters).constraints, f.constraint.Matches d := by
  obtain ⟨g, hg, hlike⟩ := exists_like_addAll hf t.filters
  refine ⟨g.constraint, ?_, hlike.matches⟩
  rw [ActionTree.addFilters_eq]
  exact mem_constraints.2 (.inl ⟨g, hg, rfl⟩)

theorem constraint_descend {f : Filter} {head : String} (hhead : f.path.via.head? = some head) :
    f.descend.constraint.under head = f.constraint := by
  obtain ⟨via, hvia⟩ := List.head?_eq_some_iff.1 hhead
  simp [Filter.constraint, Filter.descend, FieldPath.descend, FieldPath.segments, Constraint.under, hvia]

/-- What is asked for behind a relation after filters are handed down, was asked for before. -/
theorem constraint_of_pushDown (hkeys : t.KeysDiffer) {label : String} {child : ActionTree}
    (hp : (label, child) ∈ t.pushDown) {d : Constraint} (hd : d ∈ child.constraints) :
    d.under label ∈ t.constraints := by
  rcases (ActionTree.mem_pushDown hkeys).1 hp with ⟨_, rfl⟩ | ⟨_, hp⟩
  · rcases constraint_of_mem_addFilters hd with hd | ⟨f, hf, rfl⟩
    · rw [ActionTree.behind] at hd
      cases hfind : Keyed.find? label t.relations with
      | none => rw [hfind] at hd; cases hd
      | some child =>
        rw [hfind] at hd
        exact mem_constraints.2 (.inr ⟨_, Keyed.mem_of_find? hfind, d, hd, rfl⟩)
    · obtain ⟨g, hg, hhead, rfl⟩ := mem_through.1 hf
      exact mem_constraints.2 (.inl ⟨g, hg, (constraint_descend hhead).symm⟩)
  · exact mem_constraints.2 (.inr ⟨_, hp, d, hd, rfl⟩)

/-- What a tree asks for, it asks for by a filter that stays where it is, or behind a relation after filters are handed
down. -/
theorem exists_matches_pushDown (hkeys : t.KeysDiffer) (h : c ∈ t.constraints) :
    (∃ f ∈ t.filters, f.path.via = [] ∧ f.constraint = c) ∨
      ∃ label child, (label, child) ∈ t.pushDown ∧ ∃ d ∈ child.constraints, c.Matches (d.under label) := by
  rcases mem_constraints.1 h with ⟨f, hf, rfl⟩ | ⟨⟨label, child⟩, hp, d, hd, rfl⟩
  · cases hvia : f.path.via with
    | nil => exact .inl ⟨f, hf, hvia, rfl⟩
    | cons label via =>
      have hhead : f.path.via.head? = some label := by rw [hvia]; rfl
      have hthrough : f.descend ∈ through label t.filters := mem_through.2 ⟨f, hf, hhead, rfl⟩
      obtain ⟨d, hd, hmatch⟩ := exists_matches_addFilters hthrough (t.behind label)
      have hp : (label, t.narrowed label) ∈ t.pushDown :=
        (ActionTree.mem_pushDown hkeys).2 (.inl ⟨mem_heads.2 ⟨f, hf, hhead⟩, rfl⟩)
      refine .inr ⟨label, _, hp, d, hd, ?_⟩
      rw [← constraint_descend hhead]
      exact hmatch.under label
  · refine .inr ?_
    by_cases hlabel : label ∈ heads t.filters
    · have hbehind : t.behind label = child := by
        rw [ActionTree.behind, (Keyed.mem_iff_find? hkeys).1 hp]
        rfl
      refine ⟨label, t.narrowed label, (ActionTree.mem_pushDown hkeys).2 (.inl ⟨hlabel, rfl⟩), d, ?_, .refl _⟩
      rw [ActionTree.narrowed, hbehind]
      exact mem_constraints_addFilters hd _
    · exact ⟨label, child, (ActionTree.mem_pushDown hkeys).2 (.inr ⟨hlabel, hp⟩), d, hd, .refl _⟩

end Trees

/-! ## Constraints of plans -/

section Plans

variable {r : Registry} {e : Entity} {t : ActionTree} {p : PlannedLevel} {c : Constraint}

theorem mem_joinConstraints {outer : List String} {joins : List (JoinedLevel PlannedLevel)} :
    c ∈ joinConstraints outer joins ↔ ∃ j ∈ joins, ¬(j.join = .inner ∧ j.label ∈ outer) ∧
      ∃ d ∈ j.level.constraints, d.under j.label = c := by
  induction joins with
  | nil => simp [joinConstraints]
  | cons j rest ih =>
    obtain ⟨label, rel, join, level⟩ := j
    rw [joinConstraints, List.exists_mem_cons_iff]
    split
    · rename_i h
      simp only [h, not_true_eq_false, false_and, false_or, and_self]
      exact ih
    · rename_i h
      simp only [h, not_false_eq_true, true_and]
      rw [List.mem_append, ih, List.mem_map]

theorem mem_constraints_of_plan : c ∈ p.constraints ↔ (∃ cc ∈ p.conditions, cc.constraint = c) ∨
    ∃ j ∈ p.relations, ¬(j.join = .inner ∧ j.label ∈ outerLabels p.relations) ∧
      ∃ d ∈ j.level.constraints, d.under j.label = c := by
  obtain ⟨_, _, _, conditions, _, _, _, relations⟩ := p
  rw [PlannedLevel.constraints, List.mem_append, mem_joinConstraints, List.mem_map]

/-- The joins that count are, once for each, the levels behind the relations of the tree. -/
theorem mem_joinConstraints_plan (hkeys : t.KeysDiffer) (h : t.plan r e = .ok p) :
    (∃ j ∈ p.relations, ¬(j.join = .inner ∧ j.label ∈ outerLabels p.relations) ∧
      ∃ d ∈ j.level.constraints, d.under j.label = c) ↔
    ∃ label child, (label, child) ∈ t.pushDown ∧ ∃ rel l, PlansBehind r e label child rel l ∧
      ∃ d ∈ l.constraints, d.under label = c := by
  have houter {k : JoinedLevel PlannedLevel} (hk : k ∈ p.relations) (hjoin : k.join = .outer) :
      k.label ∈ outerLabels p.relations :=
    List.mem_map_of_mem (List.mem_filter.2 ⟨hk, decide_eq_true hjoin⟩)
  constructor
  · rintro ⟨j, hj, hcounts, d, hd, rfl⟩
    obtain ⟨label, child, hp, rel, l, hl, hmem⟩ := (mem_relations_plan hkeys h).1 hj
    obtain ⟨hlabel, _, hlevel | ⟨hinner, _, hmore⟩⟩ := level_of_mem_joinsOf hmem
    · rw [hlevel] at hd
      exact ⟨label, child, hp, rel, l, hl, d, hd, congrArg (d.under ·) hlabel.symm⟩
    · -- the copy for the conditions stands beside an outer join
      have hmore := houter ((mem_relations_plan hkeys h).2 ⟨label, child, hp, rel, l, hl, hmore⟩) rfl
      exact absurd ⟨hinner, hlabel ▸ hmore⟩ hcounts
  · rintro ⟨label, child, hp, rel, l, hl, d, hd, rfl⟩
    have hmem {j : JoinedLevel PlannedLevel} (hj : j ∈ joinsOf label rel (decide (label ∈ heads t.filters)) l) :
        j ∈ p.relations := (mem_relations_plan hkeys h).2 ⟨label, child, hp, rel, l, hl, hj⟩
    rcases joinsOf_outer_or_inner label rel (decide (label ∈ heads t.filters)) l with hout | hin
    · exact ⟨_, hmem hout, fun hcounts => JoinKind.noConfusion hcounts.1, d, hd, rfl⟩
    · refine ⟨⟨label, rel, .inner, l⟩, hmem (hin ▸ List.mem_singleton_self _), fun ⟨_, hlabel⟩ => ?_, d, hd, rfl⟩
      -- a join of the same relation is one of the same level, and that is joined inner only
      obtain ⟨k, hk, hklabel⟩ := List.mem_map.1 hlabel
      obtain ⟨hk, hkouter⟩ := List.mem_filter.1 hk
      obtain ⟨label', child', hp', rel', l', hl', hk⟩ := (mem_relations_plan hkeys h).1 hk
      cases (level_of_mem_joinsOf hk).1.symm.trans hklabel
      have hnodup := ActionTree.nodup_keys_pushDown hkeys
      cases ((Keyed.mem_iff_find? hnodup).1 hp).symm.trans ((Keyed.mem_iff_find? hnodup).1 hp')
      obtain ⟨rfl, rfl⟩ := hl.unique hl'
      rw [hin, List.mem_singleton] at hk
      rw [hk] at hkouter
      cases hkouter

theorem columnCondition_constraint {f : Filter} {cc : ColumnCondition} (hvia : f.path.via = [])
    (h : columnCondition e f.condition = .ok cc) : cc.constraint = f.constraint := by
  obtain ⟨hfield, hop, hvalue⟩ := columnCondition_eq_ok.1 h
  simp only [ColumnCondition.constraint, Filter.constraint, FieldPath.segments, hvia, field?_label hfield, hop, hvalue]
  rfl

/-- The conditions of a planned level ask for what the filters ask for that stay at the level. -/
theorem mem_conditions_of_plan (h : t.plan r e = .ok p) :
    (∃ cc ∈ p.conditions, cc.constraint = c) ↔ ∃ f ∈ t.filters, f.path.via = [] ∧ f.constraint = c := by
  have hconditions := conditions_of_plan h
  constructor
  · rintro ⟨cc, hcc, rfl⟩
    obtain ⟨_, hx, hxc⟩ := mem_of_mapM_eq_ok hconditions hcc
    obtain ⟨f, hf, hvia, rfl⟩ := mem_plainConditions.1 hx
    exact ⟨f, hf, hvia, (columnCondition_constraint hvia hxc).symm⟩
  · rintro ⟨f, hf, hvia, rfl⟩
    obtain ⟨cc, hcc, hfc⟩ := exists_mem_of_mapM_eq_ok hconditions (mem_plainConditions.2 ⟨f, hf, hvia, rfl⟩)
    exact ⟨cc, hcc, columnCondition_constraint hvia hfc⟩

/-- A plan asks for nothing that its tree does not ask for, and for all that it does. -/
theorem constraints_of_plan (hkeys : t.Everywhere ActionTree.KeysDiffer) (h : t.plan r e = .ok p) :
    (∀ c ∈ p.constraints, c ∈ t.constraints) ∧ ∀ c ∈ t.constraints, ∃ d ∈ p.constraints, c.Matches d := by
  induction t, hkeys using ActionTree.pushDown_induction generalizing e p with
  | step t hkeys ih =>
    constructor
    · intro c hc
      rcases mem_constraints_of_plan.1 hc with hc | hc
      · obtain ⟨f, hf, _, rfl⟩ := (mem_conditions_of_plan h).1 hc
        exact mem_constraints.2 (.inl ⟨f, hf, rfl⟩)
      · obtain ⟨label, child, hp, rel, l, ⟨d, _, _, hl⟩, x, hx, rfl⟩ := (mem_joinConstraints_plan hkeys.here h).1 hc
        exact constraint_of_pushDown hkeys.here hp ((ih _ hp hl).1 x hx)
    · intro c hc
      rcases exists_matches_pushDown hkeys.here hc with hc | ⟨label, child, hp, x, hx, hmatch⟩
      · exact ⟨c, mem_constraints_of_plan.2 (.inl ((mem_conditions_of_plan h).2 hc)), .refl c⟩
      · obtain ⟨rel, l, d, hrel, hd, hl⟩ := exists_plansBehind hkeys.here h hp
        obtain ⟨y, hy, hxy⟩ := (ih _ hp hl).2 x hx
        refine ⟨y.under label, mem_constraints_of_plan.2 (.inr ?_), hmatch.trans (hxy.under label)⟩
        exact (mem_joinConstraints_plan hkeys.here h).2 ⟨label, child, hp, rel, l, ⟨d, hrel, hd, hl⟩, y, hy, rfl⟩

end Plans

/-! ## Repetitions -/

/-- Whether two conditions have equal fields, operators and values. -/
def ColumnCondition.same (c d : ColumnCondition) : Bool :=
  c.field == d.field && c.operator == d.operator && c.value.same d.value

/-- No level asks for the same thing twice. -/
def PlannedLevel.ConditionsDiffer (l : PlannedLevel) : Prop := l.conditions.Pairwise fun c d => c.same d = false

/-- A level has no filter twice. -/
def ActionTree.FiltersDiffer (t : ActionTree) : Prop := t.filters.Pairwise fun f g => f.same g = false

theorem ActionTree.filtersDiffer_addFilter {t : ActionTree} (ht : t.FiltersDiffer) (f : Filter) :
    (t.addFilter f).FiltersDiffer := by
  unfold FiltersDiffer
  rw [addFilter, TreeQuery.addFilter]
  split
  · exact ht
  · rename_i hany
    refine List.pairwise_append.2 ⟨ht, List.pairwise_singleton _ f, fun g hg f' hf' => ?_⟩
    cases List.mem_singleton.1 hf'
    cases hsame : g.same f with
    | false => rfl
    | true =>
      rw [Filter.same_comm] at hsame
      exact absurd (List.any_eq_true.2 ⟨g, hg, hsame⟩) hany

theorem PlannedLevel.conditions_onlyConditions (l : PlannedLevel) : l.onlyConditions.conditions = l.conditions := by
  cases l
  rfl

/-- Conditions that are the same come from filters that are. -/
theorem columnCondition_same {e : Entity} {x x' : Condition} {c c' : ColumnCondition}
    (h : columnCondition e x = .ok c) (h' : columnCondition e x' = .ok c') (hne : x.same x' = false) :
    c.same c' = false := by
  obtain ⟨hfield, hop, hvalue⟩ := columnCondition_eq_ok.1 h
  obtain ⟨hfield', hop', hvalue'⟩ := columnCondition_eq_ok.1 h'
  rw [← Bool.not_eq_true] at hne ⊢
  intro hsame
  simp only [ColumnCondition.same, Condition.same, Bool.and_eq_true, beq_iff_eq] at hsame hne
  obtain ⟨⟨hfields, hops⟩, hvalues⟩ := hsame
  refine hne ⟨⟨?_, ?_⟩, ?_⟩
  · rw [← field?_label hfield, ← field?_label hfield', hfields]
  · rw [← hop, ← hop', hops]
  · rw [← hvalue, ← hvalue']
    exact hvalues

theorem plainConditions_differ {t : ActionTree} (ht : t.FiltersDiffer) :
    (plainConditions t.filters).Pairwise fun c d => c.same d = false := by
  refine List.pairwise_map.2 ((List.pairwise_filter.2 (ht.imp ?_)))
  intro f g hfg hf hg
  cases hsame : f.condition.same g.condition with
  | false => rfl
  | true =>
    rw [Bool.not_eq_true', FieldPath.isDotted_eq_false] at hf hg
    rw [Filter.same_iff.2 ⟨hf.trans hg.symm, hsame⟩] at hfg
    cases hfg

/-- If no level of a tree has a filter twice, no level of its plan has a condition twice. -/
theorem everywhere_conditionsDiffer {r : Registry} {e : Entity} {t : ActionTree} {p : PlannedLevel}
    (hkeys : t.Everywhere ActionTree.KeysDiffer) (ht : t.Everywhere ActionTree.FiltersDiffer)
    (h : t.plan r e = .ok p) : p.Everywhere PlannedLevel.ConditionsDiffer := by
  refine everywhere_plan (fun _ => .nil) (fun t f ht => ActionTree.filtersDiffer_addFilter ht f) (fun l hl => ?_)
    (fun _ ht _ h => ?_) hkeys ht h
  · rw [PlannedLevel.ConditionsDiffer, PlannedLevel.conditions_onlyConditions]
    exact hl
  · exact pairwise_of_mapM_eq_ok columnCondition_same (conditions_of_plan h) (plainConditions_differ ht)

/-! ## The plan of a tree -/

/-- **Handing filters down loses nothing, makes nothing up and moves nothing.** The plan of a tree asks for nothing that
the tree does not ask for, and for everything that it does; and if no level of the tree has a filter twice, no level
of the plan has a condition twice. Relations are filed under their names, so those of a level differ. -/
theorem constraints_plan {r : Registry} {e : Entity} {t : ActionTree} {p : PlannedLevel}
    (hkeys : t.Everywhere ActionTree.KeysDiffer) (h : t.plan r e = .ok p) :
    (∀ c ∈ p.constraints, c ∈ t.constraints) ∧ (∀ c ∈ t.constraints, ∃ d ∈ p.constraints, c.Matches d) ∧
      (t.Everywhere ActionTree.FiltersDiffer → p.Everywhere PlannedLevel.ConditionsDiffer) := by
  obtain ⟨hnothingNew, hnothingLost⟩ := constraints_of_plan hkeys h
  exact ⟨hnothingNew, hnothingLost, fun ht => everywhere_conditionsDiffer hkeys ht h⟩

/-- Tasks of a certain step, with one such step: the filter is at the level of the steps, and is handed down to it. -/
def tasksByStep : ActionTree :=
  { ActionTree.empty with
    select := .fields [.field "id"]
    filters := [⟨⟨["steps"], "label"⟩, .compare .equal, .string "draft"⟩,
      ⟨⟨["steps", "task"], "label"⟩, .like, .string "a%"⟩]
    relations := [("steps", { ActionTree.empty with
      name := some "steps"
      select := .fields [.field "label"]
      filters := [⟨⟨[], "label"⟩, .compare .equal, .string "draft"⟩]
      limit := some 1 })] }

theorem constraints_plan_tasksByStep : tasksByStep.Everywhere ActionTree.KeysDiffer ∧
    ∃ p, tasksByStep.plan taskRegistry taskEntity = .ok p ∧
      (∀ c ∈ p.constraints, c ∈ tasksByStep.constraints) ∧
      (∀ c ∈ tasksByStep.constraints, ∃ d ∈ p.constraints, c.Matches d) ∧
      (tasksByStep.Everywhere ActionTree.FiltersDiffer → p.Everywhere PlannedLevel.ConditionsDiffer) ∧
      p.relations.map (fun j => j.join) = [.inner, .outer] ∧
      p.constraints = [⟨["steps", "label"], .compare .equal, .string "draft"⟩,
        ⟨["steps", "task", "label"], .like, .string "a%"⟩] := by
  have hkeys : tasksByStep.Everywhere ActionTree.KeysDiffer := by
    refine .intro ((List.pairwise_singleton _ _)) fun p hp => ?_
    cases List.mem_singleton.1 hp
    exact .intro List.nodup_nil nofun
  have hplan : ∃ p, tasksByStep.plan taskRegistry taskEntity = .ok p ∧
      p.relations.map (fun j => j.join) = [.inner, .outer] ∧
      p.constraints = [⟨["steps", "label"], .compare .equal, .string "draft"⟩,
        ⟨["steps", "task", "label"], .like, .string "a%"⟩] :=
    ⟨_, rfl, rfl, rfl⟩
  obtain ⟨p, hp, hjoins, hconstraints⟩ := hplan
  obtain ⟨hnothingNew, hnothingLost, hdiffer⟩ := constraints_plan hkeys hp
  exact ⟨hkeys, p, hp, hnothingNew, hnothingLost, hdiffer, hjoins, hconstraints⟩

end TreeQuery
