import TreeQuery.Proofs.PlanLevels

/-!
# Which rows match

Given the partners of every row and the truth of every comparison, a planned level keeps a row if its conditions hold
and every relation that is joined inner has a partner which its level keeps (`PlannedLevel.Keeps`). What a tree asks for
is said without a plan: the plain filters hold, and for every relation that a dotted filter starts with there is a
partner which the level behind it keeps, extended by the rest of these filters (`ActionTree.Keeps`).

Both keep the same rows (`keeps_plan`). Paging has no part in it, as no level that is joined inner is paged, and neither
has what a level shows (`bare`).
-/

namespace TreeQuery

open Outcome

universe u

/-- Rows of entities: the partners of each through a relationship, and what holds of its columns. -/
structure Data (Row : Type u) where
  partners : Entity → Relationship → Row → List Row
  holds : Entity → String → Operator → Value → Row → Prop

namespace Data

variable {Row : Type u} (D : Data Row)

/-- Values that are the same compare alike. -/
def RespectsSame : Prop :=
  ∀ {e : Entity} {column : String} {op : Operator} {v w : Value} {row : Row}, v.same w = true →
    (D.holds e column op v row ↔ D.holds e column op w row)

/-- Whether a filter of a level's own fields holds of a row. -/
def Meets (e : Entity) (f : Filter) (row : Row) : Prop :=
  ∃ field, e.field? f.path.field = some field ∧ D.holds e field.column f.operator f.value row

end Data

/-! ## Rows that a plan keeps -/

section Plans

variable {Row : Type u} {D : Data Row} {row : Row}

mutual

/-- Whether a planned level keeps a row: its conditions hold, and so do the relations that are joined inner. -/
def PlannedLevel.Keeps (D : Data Row) : PlannedLevel → Row → Prop
  | ⟨entity, _, _, conditions, _, _, _, relations⟩, row =>
    (∀ c ∈ conditions, D.holds entity c.field.column c.operator c.value row) ∧ JoinsKeep D entity relations row

/-- Whether every relation that is joined inner has a partner of a row which its level keeps. -/
def JoinsKeep (D : Data Row) (e : Entity) : List (JoinedLevel PlannedLevel) → Row → Prop
  | [], _ => True
  | ⟨_, relationship, join, level⟩ :: rest, row =>
    (join = .inner → ∃ partner ∈ D.partners e relationship row, level.Keeps D partner) ∧ JoinsKeep D e rest row

end

theorem joinsKeep_iff {e : Entity} {joins : List (JoinedLevel PlannedLevel)} : JoinsKeep D e joins row ↔
    ∀ j ∈ joins, j.join = .inner → ∃ partner ∈ D.partners e j.relationship row, j.level.Keeps D partner := by
  induction joins with
  | nil => simp [JoinsKeep]
  | cons j rest ih =>
    obtain ⟨label, rel, join, level⟩ := j
    rw [JoinsKeep, ih, List.forall_mem_cons]

theorem PlannedLevel.keeps_iff : ∀ {l : PlannedLevel}, l.Keeps D row ↔
    (∀ c ∈ l.conditions, D.holds l.entity c.field.column c.operator c.value row) ∧
      ∀ j ∈ l.relations, j.join = .inner →
        ∃ partner ∈ D.partners l.entity j.relationship row, j.level.Keeps D partner := by
  rintro ⟨⟩
  rw [PlannedLevel.Keeps, joinsKeep_iff]

mutual

/-- A level and what is left of it for its conditions keep the same rows. -/
theorem PlannedLevel.keeps_onlyConditions : ∀ (l : PlannedLevel) (row : Row),
    l.onlyConditions.Keeps D row ↔ l.Keeps D row
  | ⟨entity, _, _, _, _, _, _, relations⟩, row => by
    have hjoins := joinsKeep_onlyRestricting entity relations row
    rw [PlannedLevel.onlyConditions, PlannedLevel.Keeps, PlannedLevel.Keeps, hjoins]

theorem joinsKeep_onlyRestricting (e : Entity) : ∀ (joins : List (JoinedLevel PlannedLevel)) (row : Row),
    JoinsKeep D e (PlannedLevel.onlyRestricting joins) row ↔ JoinsKeep D e joins row
  | [], _ => by rw [PlannedLevel.onlyRestricting]
  | ⟨_, _, join, level⟩ :: rest, row => by
    have hlevel (partner : Row) := PlannedLevel.keeps_onlyConditions level partner
    have hrest := joinsKeep_onlyRestricting e rest row
    rw [PlannedLevel.onlyRestricting]
    split
    · rename_i hjoin
      simp only [JoinsKeep, hlevel, hrest, hjoin]
    · rename_i hjoin
      simp only [JoinsKeep, hrest, hjoin, false_implies, true_and]

end

/-- A relation that a filter went through asks for a partner, however it is joined, and no other relation does. -/
theorem joinsKeep_joinsOf (label : String) {e : Entity} {rel : Relationship} {restricts : Bool} {l : PlannedLevel} :
    JoinsKeep D e (joinsOf label rel restricts l) row ↔
      (restricts = true → ∃ partner ∈ D.partners e rel row, l.Keeps D partner) := by
  unfold joinsOf
  cases restricts with
  | false => simp [JoinsKeep]
  | true =>
    by_cases hpaged : (l.output && l.isPaged) = true
    · simp [JoinsKeep, hpaged, PlannedLevel.keeps_onlyConditions]
    · simp [JoinsKeep, hpaged]

end Plans

/-! ## Rows that a tree asks for -/

namespace ActionTree

/-- The level behind a relation, extended by the filters that go through the relation. -/
def extended (extend : List Filter → List Filter → List Filter) (t : ActionTree) (head : String) : ActionTree :=
  { t.behind head with filters := extend (t.behind head).filters (through head t.filters) }

mutual

/-- Whether a tree asks for a row of an entity: its plain filters hold of the row, and every relation that a dotted
filter starts with finds a partner. -/
inductive Keeps {Row : Type u} (D : Data Row) (extend : List Filter → List Filter → List Filter) (r : Registry) :
    Entity → ActionTree → Row → Prop
  | intro {e : Entity} {t : ActionTree} {row : Row}
      (plain : ∀ f ∈ t.filters, f.path.via = [] → D.Meets e f row)
      (dotted : ∀ head ∈ heads t.filters, Finds D extend r e head (t.extended extend head) row) :
      Keeps D extend r e t row

/-- Whether a row has a partner through a relation that a tree asks for. -/
inductive Finds {Row : Type u} (D : Data Row) (extend : List Filter → List Filter → List Filter) (r : Registry) :
    Entity → String → ActionTree → Row → Prop
  | intro {e d : Entity} {head : String} {rel : Relationship} {t : ActionTree} {row partner : Row}
      (relationship : e.relationship? head = some rel) (target : r.entity? rel.target = some d)
      (isPartner : partner ∈ D.partners e rel row) (kept : Keeps D extend r d t partner) :
      Finds D extend r e head t row

end

section Trees

variable {Row : Type u} {D : Data Row} {extend extend' : List Filter → List Filter → List Filter} {r : Registry}

theorem keeps_iff {e : Entity} {t : ActionTree} {row : Row} : t.Keeps D extend r e row ↔
    (∀ f ∈ t.filters, f.path.via = [] → D.Meets e f row) ∧
      ∀ head ∈ heads t.filters, Finds D extend r e head (t.extended extend head) row :=
  ⟨fun | .intro plain dotted => ⟨plain, dotted⟩, fun ⟨plain, dotted⟩ => .intro plain dotted⟩

/-- A relation between trees through which asking for rows can be carried: every filter of the second tree follows
from one of the first, and the levels behind a relation stand in the relation again. -/
structure Carries (D : Data Row) (extend extend' : List Filter → List Filter → List Filter)
    (R : ActionTree → ActionTree → Prop) : Prop where
  filters : ∀ {t u}, R t u → ∀ f ∈ u.filters, ∃ g ∈ t.filters, g.path = f.path ∧
    ∀ {e row}, D.Meets e g row → D.Meets e f row
  extended : ∀ {t u}, R t u → ∀ head, R (t.extended extend head) (u.extended extend' head)

mutual

theorem Carries.keeps {R : ActionTree → ActionTree → Prop} (hR : Carries D extend extend' R) {e : Entity}
    {t u : ActionTree} {row : Row} (h : R t u) : t.Keeps D extend r e row → u.Keeps D extend' r e row
  | .intro plain dotted => by
    refine .intro (fun f hf hvia => ?_) fun head hhead => ?_
    · obtain ⟨g, hg, hpath, hmeets⟩ := hR.filters h f hf
      exact hmeets (plain g hg (hpath ▸ hvia))
    · obtain ⟨f, hf, hvia⟩ := mem_heads.1 hhead
      obtain ⟨g, hg, hpath, _⟩ := hR.filters h f hf
      exact Carries.finds hR (hR.extended h head) (dotted head (mem_heads.2 ⟨g, hg, hpath ▸ hvia⟩))

theorem Carries.finds {R : ActionTree → ActionTree → Prop} (hR : Carries D extend extend' R) {e : Entity}
    {head : String} {t u : ActionTree} {row : Row} (h : R t u) :
    Finds D extend r e head t row → Finds D extend' r e head u row
  | .intro hrel hd hpartner kept => .intro hrel hd hpartner (Carries.keeps hR h kept)

end

/-! ### Filters that say the same -/

/-- Every filter of a list is in another list, or one that says the same. -/
def Covered (filters others : List Filter) : Prop := ∀ f ∈ filters, ∃ g ∈ others, f.Like g

section Covered

variable {fs gs ks : List Filter}

theorem Covered.of_subset (h : fs ⊆ gs) : Covered fs gs := fun f hf => ⟨f, h hf, .inl rfl⟩

theorem Covered.trans (h : Covered fs gs) (h' : Covered gs ks) : Covered fs ks := by
  intro f hf
  obtain ⟨g, hg, hfg⟩ := h f hf
  obtain ⟨k, hk, hgk⟩ := h' g hg
  exact ⟨k, hk, hfg.trans hgk⟩

theorem Covered.append_left {base : List Filter} (h : Covered fs gs) : Covered (base ++ fs) (base ++ gs) := by
  intro f hf
  rcases List.mem_append.1 hf with hf | hf
  · exact ⟨f, List.mem_append_left _ hf, .inl rfl⟩
  · obtain ⟨g, hg, hlike⟩ := h f hf
    exact ⟨g, List.mem_append_right _ hg, hlike⟩

theorem Covered.through (h : Covered fs gs) (head : String) : Covered (through head fs) (through head gs) := by
  intro f hf
  obtain ⟨f', hf', hhead, rfl⟩ := mem_through.1 hf
  obtain ⟨g, hg, hlike⟩ := h f' hf'
  refine ⟨g.descend, mem_through.2 ⟨g, hg, hlike.path ▸ hhead, rfl⟩, ?_⟩
  rcases hlike with rfl | hsame
  · exact .inl rfl
  · simp only [Filter.Like, Filter.same, Filter.descend, Bool.and_eq_true, beq_iff_eq] at hsame ⊢
    exact .inr ⟨⟨congrArg FieldPath.descend hsame.1.1, hsame.1.2⟩, hsame.2⟩

end Covered

/-- A way to extend a list of filters that says what the list and the others say together. -/
def Joins (extend : List Filter → List Filter → List Filter) : Prop :=
  ∀ filters more, Covered (filters ++ more) (extend filters more) ∧ Covered (extend filters more) (filters ++ more)

theorem joins_append : Joins (· ++ ·) := fun _ _ => ⟨.of_subset (List.Subset.refl _), .of_subset (List.Subset.refl _)⟩

theorem joins_addAll : Joins addAll := by
  refine fun filters more => ⟨fun f hf => ?_, .of_subset fun f hf => ?_⟩
  · rcases List.mem_append.1 hf with hf | hf
    · exact ⟨f, mem_addAll_of_mem hf more, .inl rfl⟩
    · exact exists_like_addAll hf filters
  · exact List.mem_append.2 (mem_or_mem_of_mem_addAll hf)

/-- Two levels with the same relations whose filters say the same. -/
def Alike (t u : ActionTree) : Prop :=
  t.relations = u.relations ∧ Covered t.filters u.filters ∧ Covered u.filters t.filters

/-- Where values that are the same compare alike, it makes no difference how filters are joined. -/
theorem carries_alike (hD : D.RespectsSame) (hjoins : Joins extend) (hjoins' : Joins extend') :
    Carries D extend extend' Alike where
  filters := by
    rintro t u ⟨_, _, hback⟩ f hf
    obtain ⟨g, hg, hlike⟩ := hback f hf
    refine ⟨g, hg, hlike.path.symm, fun ⟨field, hfield, hholds⟩ => ?_⟩
    rcases hlike with rfl | hsame
    · exact ⟨field, hfield, hholds⟩
    · simp only [Filter.same, Bool.and_eq_true, beq_iff_eq] at hsame
      obtain ⟨⟨hpath, hop⟩, hvalue⟩ := hsame
      rw [← hpath] at hfield
      rw [← hop] at hholds
      exact ⟨field, hfield, (hD hvalue).2 hholds⟩
  extended := by
    rintro t u ⟨hrelations, hforth, hback⟩ head
    have hbehind : t.behind head = u.behind head := by rw [behind, behind, hrelations]
    have hbehindRelations : (t.behind head).relations = (u.behind head).relations := by rw [hbehind]
    refine ⟨hbehindRelations, ?_, ?_⟩
    · show Covered (extend (t.behind head).filters _) (extend' (u.behind head).filters _)
      rw [hbehind]
      exact (hjoins _ _).2.trans ((hforth.through head).append_left.trans (hjoins' _ _).1)
    · show Covered (extend' (u.behind head).filters _) (extend (t.behind head).filters _)
      rw [hbehind]
      exact (hjoins' _ _).2.trans ((hback.through head).append_left.trans (hjoins _ _).1)

theorem keeps_congr_extend (hD : D.RespectsSame) (hjoins : Joins extend) (hjoins' : Joins extend') {e : Entity}
    {t : ActionTree} {row : Row} : t.Keeps D extend r e row ↔ t.Keeps D extend' r e row := by
  have hself : Alike t t := ⟨rfl, .of_subset (List.Subset.refl _), .of_subset (List.Subset.refl _)⟩
  exact ⟨(carries_alike hD hjoins hjoins').keeps hself, (carries_alike hD hjoins' hjoins).keeps hself⟩

/-! ### What a level shows -/

mutual

/-- A tree left with its filters and relations: nothing is selected, sorted or paged. -/
def bare : ActionTree → ActionTree
  | ⟨name, _, filters, _, _, _, relations⟩ => ⟨name, .unselected, filters, none, none, none, bareRelations relations⟩

/-- Relations with every level behind them left with its filters and relations. -/
def bareRelations : List (String × ActionTree) → List (String × ActionTree)
  | [] => []
  | (label, child) :: rest => (label, child.bare) :: bareRelations rest

end

theorem filters_bare (t : ActionTree) : t.bare.filters = t.filters := by
  cases t
  rfl

theorem find?_bareRelations (head : String) (relations : List (String × ActionTree)) :
    Keyed.find? head (bareRelations relations) = (Keyed.find? head relations).map bare := by
  induction relations with
  | nil => rfl
  | cons p rest ih =>
    obtain ⟨label, child⟩ := p
    rw [bareRelations, Keyed.find?, Keyed.find?, ih]
    split <;> rfl

theorem behind_bare (head : String) (t : ActionTree) : t.bare.behind head = (t.behind head).bare := by
  obtain ⟨_, _, _, _, _, _, relations⟩ := t
  have hfind := find?_bareRelations head relations
  simp only [behind, bare, hfind]
  cases Keyed.find? head relations <;> rfl

theorem extended_bare (head : String) (t : ActionTree) :
    (t.extended extend head).bare = t.bare.extended extend head := by
  rw [extended, extended, behind_bare, filters_bare, filters_bare]
  cases t.behind head
  rfl

theorem carries_bare (D : Data Row) : Carries D extend extend fun t u => t.bare = u.bare where
  filters := by
    intro t u h f hf
    rw [← filters_bare, ← h, filters_bare] at hf
    exact ⟨f, hf, rfl, id⟩
  extended := by
    intro t u h head
    rw [extended_bare, extended_bare, h]

/-- What a tree asks for does not depend on what its levels show. -/
theorem keeps_congr_bare {e : Entity} {t u : ActionTree} {row : Row} (h : t.bare = u.bare) :
    t.Keeps D extend r e row ↔ u.Keeps D extend r e row :=
  ⟨(carries_bare D).keeps h, (carries_bare D).keeps h.symm⟩

end Trees

end ActionTree

/-! ## Plans of trees -/

section Planning

variable {Row : Type u} {D : Data Row} {r : Registry} {e : Entity} {t : ActionTree} {p : PlannedLevel} {row : Row}

/-- The conditions of a planned level hold of a row iff the plain filters of the level do. -/
theorem conditions_hold (h : t.plan r e = .ok p) :
    (∀ c ∈ p.conditions, D.holds e c.field.column c.operator c.value row) ↔
      ∀ f ∈ t.filters, f.path.via = [] → D.Meets e f row := by
  have hconditions := conditions_of_plan h
  constructor
  · intro hholds f hf hvia
    obtain ⟨c, hc, hfc⟩ := exists_mem_of_mapM_eq_ok hconditions (mem_plainConditions.2 ⟨f, hf, hvia, rfl⟩)
    obtain ⟨hfield, hop, hvalue⟩ := columnCondition_eq_ok.1 hfc
    have hrow := hholds c hc
    rw [hop, hvalue] at hrow
    exact ⟨c.field, hfield, hrow⟩
  · intro hmeets c hc
    obtain ⟨x, hx, hxc⟩ := mem_of_mapM_eq_ok hconditions hc
    obtain ⟨f, hf, hvia, rfl⟩ := mem_plainConditions.1 hx
    obtain ⟨field, hfield, hrow⟩ := hmeets f hf hvia
    obtain ⟨hfield', hop, hvalue⟩ := columnCondition_eq_ok.1 hxc
    cases hfield.symm.trans hfield'
    rw [hop, hvalue]
    exact hrow

theorem extended_addAll (t : ActionTree) (head : String) : t.extended addAll head = t.narrowed head := by
  rw [ActionTree.extended, ActionTree.narrowed, ActionTree.addFilters_eq]

/-- The plan of a tree keeps the rows that the tree asks for. -/
theorem keeps_iff_of_plan (hkeys : t.Everywhere ActionTree.KeysDiffer) (h : t.plan r e = .ok p) :
    p.Keeps D row ↔ t.Keeps D addAll r e row := by
  induction t, hkeys using ActionTree.pushDown_induction generalizing e p row with
  | step t hkeys ih =>
    rw [PlannedLevel.keeps_iff, ActionTree.keeps_iff, entity_of_plan h, conditions_hold h]
    refine and_congr_right fun _ => ⟨fun hjoins head hhead => ?_, fun hfinds j hj hinner => ?_⟩
    · have hp : (head, t.narrowed head) ∈ t.pushDown := (ActionTree.mem_pushDown hkeys.here).2 (.inl ⟨hhead, rfl⟩)
      obtain ⟨rel, l, d, hrel, hd, hl⟩ := exists_plansBehind hkeys.here h hp
      -- all joins of the relation are joins of the level, and they ask for a partner
      have hpartner : ∃ partner ∈ D.partners e rel row, l.Keeps D partner := by
        refine (joinsKeep_joinsOf head).1 (joinsKeep_iff.2 fun j hj => hjoins j ?_) (decide_eq_true hhead)
        exact (mem_relations_plan hkeys.here h).2 ⟨head, _, hp, rel, l, ⟨d, hrel, hd, hl⟩, hj⟩
      obtain ⟨partner, hpartner, hkept⟩ := hpartner
      rw [extended_addAll]
      exact .intro hrel hd hpartner ((ih _ hp hl).1 hkept)
    · obtain ⟨label, child, hp, rel, l, ⟨d, hrel, hd, hl⟩, hj⟩ := (mem_relations_plan hkeys.here h).1 hj
      refine joinsKeep_iff.1 ((joinsKeep_joinsOf label).2 fun hrestricts => ?_) j hj hinner
      have hhead : label ∈ heads t.filters := of_decide_eq_true hrestricts
      obtain ⟨_, rfl⟩ | ⟨hplain, _⟩ := (ActionTree.mem_pushDown hkeys.here).1 hp
      · obtain ⟨hrel', hd', hpartner, kept⟩ := hfinds label hhead
        cases hrel.symm.trans hrel'
        cases hd.symm.trans hd'
        rw [extended_addAll] at kept
        exact ⟨_, hpartner, (ih _ hp hl).2 kept⟩
      · exact absurd hhead hplain

/-! ### Paging -/

/-- A level is paged only if it shows something. -/
def ActionTree.PagesOutput (t : ActionTree) : Prop := t.select.isOutput = false → t.limit = none ∧ t.offset = none

/-- No level that is joined inner is paged. -/
def PlannedLevel.RestrictsUnpaged (l : PlannedLevel) : Prop :=
  ∀ j ∈ l.relations, j.join = .inner → j.level.isPaged = false

theorem PlannedLevel.isPaged_onlyConditions (l : PlannedLevel) : l.onlyConditions.isPaged = false := by
  cases l
  rfl

theorem isPaged_of_joinsOf_inner {label : String} {rel : Relationship} {restricts : Bool} {l : PlannedLevel}
    (hl : l.output = false → l.isPaged = false) {j : JoinedLevel PlannedLevel}
    (hj : j ∈ joinsOf label rel restricts l) (hinner : j.join = .inner) : j.level.isPaged = false := by
  unfold joinsOf at hj
  split at hj
  · cases List.mem_singleton.1 hj
    cases hinner
  · split at hj
    · rcases List.mem_pair.1 hj with rfl | rfl
      · exact l.isPaged_onlyConditions
      · cases hinner
    · rename_i hpaged
      cases List.mem_singleton.1 hj
      cases hout : l.output with
      | false => exact hl hout
      | true => simpa [hout] using hpaged

/-- Where levels are paged only if they show something, no level that is joined inner is paged. -/
theorem everywhere_restrictsUnpaged (hkeys : t.Everywhere ActionTree.KeysDiffer)
    (ht : t.Everywhere ActionTree.PagesOutput) (h : t.plan r e = .ok p) :
    p.Everywhere PlannedLevel.RestrictsUnpaged := by
  refine everywhere_plan (fun _ _ => ⟨rfl, rfl⟩) (fun _ _ h => h) (fun l _ => ?_) (fun hkeys _ hbelow h => ?_)
    hkeys ht h
  · intro j hj _
    rw [PlannedLevel.relations_onlyConditions] at hj
    obtain ⟨k, _, _, rfl⟩ := PlannedLevel.mem_onlyRestricting.1 hj
    exact k.level.isPaged_onlyConditions
  · intro j hj hinner
    obtain ⟨label, child, hp, rel, l, ⟨d, _, _, hl⟩, hj⟩ := (mem_relations_plan hkeys h).1 hj
    refine isPaged_of_joinsOf_inner (fun hout => ?_) hj hinner
    obtain ⟨hlimit, hoffset⟩ := paging_of_plan hl
    obtain ⟨hnoLimit, hnoOffset⟩ := hbelow _ hp ((output_of_plan hl).symm.trans hout)
    rw [PlannedLevel.isPaged, hlimit, hoffset, hnoLimit, hnoOffset]
    rfl

end Planning

/-- **Planning does not change which rows match, and paging never decides it.** Whatever the rows and their partners
are, the plan of a query keeps the rows that its tree asks for. No level that is joined inner is paged, and two queries
that differ in what their levels show keep the same rows. Handing filters down leaves out a filter if one that says the
same is there; where values that are the same compare alike, that makes no difference. -/
theorem keeps_plan {Row : Type u} (D : Data Row) (r : Registry) (e : Entity) {text : String} {t : ActionTree}
    {p : PlannedLevel} (ht : ActionTree.ofText text = .ok t) (h : t.plan r e = .ok p) :
    (∀ row, p.Keeps D row ↔ t.Keeps D addAll r e row) ∧
      (D.RespectsSame → ∀ row, p.Keeps D row ↔ t.Keeps D (· ++ ·) r e row) ∧
      p.Everywhere PlannedLevel.RestrictsUnpaged ∧
      ∀ text' t' p', ActionTree.ofText text' = .ok t' → t'.plan r e = .ok p' → t'.bare = t.bare →
        ∀ row, p'.Keeps D row ↔ p.Keeps D row := by
  have hkeys := ActionTree.keysDiffer_ofText ht
  have hkeeps (row : Row) : p.Keeps D row ↔ t.Keeps D addAll r e row := keeps_iff_of_plan hkeys h
  refine ⟨hkeeps, fun hD row => ?_, ?_, fun text' t' p' ht' h' hbare row => ?_⟩
  · rw [hkeeps]
    exact ActionTree.keeps_congr_extend hD ActionTree.joins_addAll ActionTree.joins_append
  · have hpages : t.Everywhere ActionTree.PagesOutput := by
      refine (ActionTree.isOutput_ofText ht).mono fun t hshown hhidden => ?_
      rw [hshown] at hhidden
      cases hhidden
    exact everywhere_restrictsUnpaged hkeys hpages h
  · rw [hkeeps, keeps_iff_of_plan (ActionTree.keysDiffer_ofText ht') h']
    exact ActionTree.keeps_congr_bare hbare

/-- Tasks with a draft other than step 1 among their steps, each with one of its drafts. The steps have a filter of
their own, which one of the filters that are handed down says again. -/
def draftedTasks : ActionTree :=
  { ActionTree.empty with
    select := .fields [.field "id"]
    filters := [⟨⟨["steps"], "label"⟩, .compare .equal, .string "draft"⟩,
      ⟨⟨["steps"], "id"⟩, .compare .notEqual, .int 1⟩]
    relations := [("steps", { ActionTree.empty with
      name := some "steps"
      select := .fields [.field "label"]
      filters := [⟨⟨[], "label"⟩, .compare .equal, .string "draft"⟩]
      limit := some 1 })] }

/-- What stands in a column of a row: the second step is a draft. -/
def draftCell (column : String) (row : Nat) : Value :=
  if column = "title" then .string (if row = 2 then "draft" else "final") else .int (Int64.ofNat row)

/-- Task 0 has the steps 1 and 2, and every other task has step 3. -/
def draftData : Data Nat where
  partners _ rel row := if rel.target = "step" then if row = 0 then [1, 2] else [3] else []
  holds _ column op v row :=
    match op with
    | .compare .equal => (draftCell column row).same v = true
    | .compare .notEqual => (draftCell column row).same v = false
    | _ => False

theorem draftData_respectsSame : draftData.RespectsSame := by
  intro e column op v w row h
  have hcell : (draftCell column row).same v = (draftCell column row).same w := Value.same_congr h
  simp only [draftData, hcell]

theorem keeps_plan_drafts :
    ActionTree.ofText
      "q=(id, steps(label).filter(label=\"draft\").limit(1)).filter(steps.label=\"draft\").filter(steps.id!=1)" =
        .ok draftedTasks ∧
    ((draftedTasks.extended addAll "steps").filters.length = 2 ∧
      (draftedTasks.extended (· ++ ·) "steps").filters.length = 3) ∧
    ∃ p, draftedTasks.plan taskRegistry taskEntity = .ok p ∧
      (∀ row, p.Keeps draftData row ↔ draftedTasks.Keeps draftData addAll taskRegistry taskEntity row) ∧
      draftData.RespectsSame ∧
      (∀ row, p.Keeps draftData row ↔ draftedTasks.Keeps draftData (· ++ ·) taskRegistry taskEntity row) ∧
      p.Everywhere PlannedLevel.RestrictsUnpaged ∧ (p.Keeps draftData 0 ∧ ¬p.Keeps draftData 1) ∧
      ∃ t' p', ActionTree.ofText
          "q=(*, steps(*).filter(label=\"draft\").order(id, desc)).filter(steps.label=\"draft\").filter(steps.id!=1)" =
            .ok t' ∧
        t'.plan taskRegistry taskEntity = .ok p' ∧ ∀ row, p'.Keeps draftData row ↔ p.Keeps draftData row := by
  have ht : ActionTree.ofText
      "q=(id, steps(label).filter(label=\"draft\").limit(1)).filter(steps.label=\"draft\").filter(steps.id!=1)" =
        .ok draftedTasks :=
    ActionTree.ofText_eq_ok.2 ⟨⟨[.name "id", .relation "steps" ⟨[.name "label"],
      [.filter ["label"] (.compare .equal) (.string "draft"), .limit 1]⟩],
      [.filter ["steps", "label"] (.compare .equal) (.string "draft"),
        .filter ["steps", "id"] (.compare .notEqual) (.int 1)]⟩, rfl, rfl⟩
  obtain ⟨p, hp, hkept⟩ : ∃ p, draftedTasks.plan taskRegistry taskEntity = .ok p ∧
      (p.Keeps draftData 0 ∧ ¬p.Keeps draftData 1) := by
    refine ⟨_, rfl, ?_⟩
    simp [PlannedLevel.Keeps, JoinsKeep, joinsKeep_joinsOf, draftData, draftCell, Filter.condition, Value.same]
  obtain ⟨hkeeps, hkeepsAppended, hunpaged, hbare⟩ := keeps_plan draftData taskRegistry taskEntity ht hp
  obtain ⟨t', ht', p', hp', hsame⟩ :
      ∃ t', ActionTree.ofText
        "q=(*, steps(*).filter(label=\"draft\").order(id, desc)).filter(steps.label=\"draft\").filter(steps.id!=1)" =
          .ok t' ∧ ∃ p', t'.plan taskRegistry taskEntity = .ok p' ∧ t'.bare = draftedTasks.bare :=
    ⟨_, ActionTree.ofText_eq_ok.2 ⟨⟨[.wildcard, .relation "steps" ⟨[.wildcard],
      [.filter ["label"] (.compare .equal) (.string "draft"), .order "id" .descending]⟩],
      [.filter ["steps", "label"] (.compare .equal) (.string "draft"),
        .filter ["steps", "id"] (.compare .notEqual) (.int 1)]⟩, rfl, rfl⟩, _, rfl, rfl⟩
  exact ⟨ht, ⟨rfl, rfl⟩, p, hp, hkeeps, draftData_respectsSame, hkeepsAppended draftData_respectsSame, hunpaged, hkept,
    t', p', ht', hp', hbare _ _ _ ht' hp' hsame⟩

/-- Tasks with a step at zero, where the zero of the steps and the one that is handed down differ in their signs. -/
def zeroTasks : ActionTree :=
  { ActionTree.empty with
    select := .fields [.field "id"]
    filters := [⟨⟨["steps"], "id"⟩, .compare .equal, .float (.ofSign true 0)⟩]
    relations := [("steps", { ActionTree.empty with
      name := some "steps"
      select := .fields [.field "id"]
      filters := [⟨⟨[], "id"⟩, .compare .equal, .float (.ofSign false 0)⟩] })] }

/-- One row, its own partner, in which every column equals the zero without a sign and no other value. -/
def zeroData : Data Unit where
  partners _ _ _ := [()]
  holds _ _ _ v _ := v = .float (.ofSign false 0)

/-- Where comparisons tell apart values that are the same, it does make a difference whether a filter that is handed
down is left out. -/
theorem not_keeps_append_zeros :
    ActionTree.ofText "q=(id, steps(id).filter(id=0.0)).filter(steps.id=-0.0)" = .ok zeroTasks ∧
    ¬zeroData.RespectsSame ∧ ∃ p, zeroTasks.plan taskRegistry taskEntity = .ok p ∧ p.Keeps zeroData () ∧
      ¬zeroTasks.Keeps zeroData (· ++ ·) taskRegistry taskEntity () := by
  have hother : Value.float (.ofSign true 0) ≠ .float (.ofSign false 0) :=
    fun h => absurd (Value.float.inj h) (by decide)
  refine ⟨ActionTree.ofText_eq_ok.2 ⟨⟨[.name "id", .relation "steps" ⟨[.name "id"],
      [.filter ["id"] (.compare .equal) (.float (.ofSign false 0))]⟩],
    [.filter ["steps", "id"] (.compare .equal) (.float (.ofSign true 0))]⟩, rfl, rfl⟩, ?_, _, rfl, ?_, ?_⟩
  · intro hrespects
    have hsame : Value.same (.float (.ofSign false 0)) (.float (.ofSign true 0)) = true := rfl
    have hholds := @hrespects taskEntity "id" (.compare .equal) _ _ () hsame
    exact hother (hholds.1 rfl)
  · simp [PlannedLevel.Keeps, JoinsKeep, joinsKeep_joinsOf, zeroData, Filter.condition]
  · rintro ⟨_, dotted⟩
    obtain ⟨_, _, _, ⟨plain, _⟩⟩ := dotted "steps" List.mem_cons_self
    obtain ⟨_, _, hholds⟩ := plain ⟨⟨[], "id"⟩, .compare .equal, .float (.ofSign true 0)⟩
      (.tail _ List.mem_cons_self) rfl
    exact hother hholds

end TreeQuery
