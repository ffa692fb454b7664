import TreeQuery.Proofs.Constraints

/-!
# How relations are joined

A relation of a planned level is joined inner iff a filter that is written at the level, or at one that it is reached
through, goes on through the relation (`joinedAs_of_reaches`). It makes no difference on how many levels the filter was
handed down before, or whether one that says the same was there already.

- A level counts as reached through the joins that show what a relation leads to: where a relation is joined twice, the
  inner join is left for its conditions and does not count (`Reaches`).
- To hand filters down does not change what goes through the relations further down (`passes_pushDown`), so that one
  level of the plan is enough (`joinedAs_of_plan`).
- The joins of a relation stand next to each other, and no others of its label are there (`planBranches_split`).
-/

namespace TreeQuery

open Outcome

/-! ## Filters on their way -/

namespace ActionTree

/-- Whether a filter goes through a relation of the level at the end of a path: it is written there or at a level on the
way, and its segments lead along the path, through the relation and on. -/
def Passes (t : ActionTree) (path : List String) (label : String) : Prop :=
  ∃ start level f rest, start <+: path ∧ t.levelAt? start = some level ∧ f ∈ level.filters ∧ rest ≠ [] ∧
    start ++ f.path.segments = path ++ label :: rest

/-- Whether a level shows something and asks for a page of it. -/
def ShowsPage (t : ActionTree) : Prop := t.select.isOutput = true ∧ isPaged t.limit t.offset = true

variable {t child : ActionTree} {path : List String} {head label : String}

/-- The segments of a dotted path start with its first relation. -/
theorem segments_eq_cons {p : FieldPath} {rest : List String} (hrest : rest ≠ []) :
    p.segments = head :: rest ↔ p.via.head? = some head ∧ p.descend.segments = rest := by
  obtain ⟨via, field⟩ := p
  cases via with
  | nil => simp [FieldPath.segments, Ne.symm hrest]
  | cons first via => simp [FieldPath.segments, FieldPath.descend]

theorem passes_nil : t.Passes [] label ↔ label ∈ heads t.filters := by
  rw [mem_heads]
  constructor
  · rintro ⟨start, level, f, rest, hstart, hlevel, hf, hrest, hsegments⟩
    cases List.prefix_nil.1 hstart
    cases hlevel
    exact ⟨f, hf, ((segments_eq_cons hrest).1 hsegments).1⟩
  · rintro ⟨f, hf, hhead⟩
    have hrest : f.path.descend.segments ≠ [] := List.append_ne_nil_of_right_ne_nil _ (List.cons_ne_nil _ _)
    exact ⟨[], t, f, _, List.nil_prefix, rfl, hf, hrest, (segments_eq_cons hrest).2 ⟨hhead, rfl⟩⟩

theorem behind_of_levelAt? {level : ActionTree} (h : t.levelAt? [label] = some level) : t.behind label = level := by
  rw [levelAt?_singleton] at h
  rw [behind, h]
  rfl

/-- Behind a relation, after filters are handed down, the same levels are found as before. -/
theorem levelAt?_pushDown (hkeys : t.KeysDiffer) (hp : (head, child) ∈ t.pushDown) (hpath : path ≠ []) :
    child.levelAt? path = t.levelAt? (head :: path) := by
  rw [levelAt?]
  rcases (mem_pushDown hkeys).1 hp with ⟨_, rfl⟩ | ⟨_, hp⟩
  · have hrelations : (t.narrowed head).relations = (t.behind head).relations := by rw [narrowed, addFilters_eq]
    rw [levelAt?_congr hrelations hpath, behind]
    cases Keyed.find? head t.relations with
    | none =>
      cases path with
      | nil => exact absurd rfl hpath
      | cons next path => rfl
    | some child => rfl
  · rw [(Keyed.mem_iff_find? hkeys).1 hp]
    rfl

/-- A filter of a level behind a relation, after filters are handed down, was there before or has come through the
relation. -/
theorem mem_filters_pushDown (hkeys : t.KeysDiffer) (hp : (head, child) ∈ t.pushDown) {f : Filter}
    (hf : f ∈ child.filters) : (∃ level, t.levelAt? [head] = some level ∧ f ∈ level.filters) ∨
      ∃ g ∈ t.filters, g.path.via.head? = some head ∧ g.descend = f := by
  rcases (mem_pushDown hkeys).1 hp with ⟨_, rfl⟩ | ⟨_, hp⟩
  · rw [narrowed, addFilters_eq] at hf
    rcases mem_or_mem_of_mem_addAll hf with hf | hf
    · rw [behind] at hf
      cases hfind : Keyed.find? head t.relations with
      | none => rw [hfind] at hf; cases hf
      | some child =>
        rw [hfind] at hf
        exact .inl ⟨child, by rw [levelAt?_singleton, hfind], hf⟩
    · exact .inr (mem_through.1 hf)
  · exact .inl ⟨child, by rw [levelAt?_singleton, (Keyed.mem_iff_find? hkeys).1 hp], hf⟩

/-- The filters of a level stay there when filters are handed down to it. -/
theorem mem_filters_of_levelAt? (hkeys : t.KeysDiffer) (hp : (head, child) ∈ t.pushDown) {level : ActionTree}
    (hlevel : t.levelAt? [head] = some level) {f : Filter} (hf : f ∈ level.filters) : f ∈ child.filters := by
  rcases (mem_pushDown hkeys).1 hp with ⟨_, rfl⟩ | ⟨_, hp⟩
  · rw [narrowed, addFilters_eq, behind_of_levelAt? hlevel]
    exact mem_addAll_of_mem hf _
  · rw [levelAt?_singleton, (Keyed.mem_iff_find? hkeys).1 hp] at hlevel
    cases hlevel
    exact hf

/-- What comes through a relation is a filter of the level behind it, or one of the same path is. -/
theorem exists_filter_pushDown (hkeys : t.KeysDiffer) (hp : (head, child) ∈ t.pushDown) {g : Filter}
    (hg : g ∈ t.filters) (hhead : g.path.via.head? = some head) : ∃ f ∈ child.filters, f.path = g.path.descend := by
  have hheads : head ∈ heads t.filters := mem_heads.2 ⟨g, hg, hhead⟩
  rcases (mem_pushDown hkeys).1 hp with ⟨_, rfl⟩ | ⟨hplain, _⟩
  · obtain ⟨f, hf, hlike⟩ := exists_like_addAll (mem_through.2 ⟨g, hg, hhead, rfl⟩) (t.behind head).filters
    refine ⟨f, ?_, hlike.path.symm⟩
    rw [narrowed, addFilters_eq]
    exact hf
  · exact absurd hheads hplain

/-- **Handing filters down does not change what goes through relations.** What goes through a relation behind another
one, goes through it also after filters have been handed down to the level in between. -/
theorem passes_pushDown (hkeys : t.KeysDiffer) (hp : (head, child) ∈ t.pushDown) :
    child.Passes path label ↔ t.Passes (head :: path) label := by
  constructor
  · rintro ⟨start, level, f, rest, hstart, hlevel, hf, hrest, hsegments⟩
    cases start with
    | nil =>
      cases hlevel
      rcases mem_filters_pushDown hkeys hp hf with ⟨level, hlevel, hf⟩ | ⟨g, hg, hhead, rfl⟩
      · exact ⟨[head], level, f, rest, List.cons_prefix_cons.2 ⟨rfl, hstart⟩, hlevel, hf, hrest,
          congrArg (head :: ·) hsegments⟩
      · have hnext : path ++ label :: rest ≠ [] := List.append_ne_nil_of_right_ne_nil _ (List.cons_ne_nil _ _)
        exact ⟨[], t, g, rest, List.nil_prefix, rfl, hg, hrest, (segments_eq_cons hnext).2 ⟨hhead, hsegments⟩⟩
    | cons next start =>
      rw [levelAt?_pushDown hkeys hp (List.cons_ne_nil _ _)] at hlevel
      exact ⟨head :: next :: start, level, f, rest, List.cons_prefix_cons.2 ⟨rfl, hstart⟩, hlevel, hf, hrest,
        congrArg (head :: ·) hsegments⟩
  · rintro ⟨start, level, f, rest, hstart, hlevel, hf, hrest, hsegments⟩
    cases start with
    | nil =>
      cases hlevel
      have hnext : path ++ label :: rest ≠ [] := List.append_ne_nil_of_right_ne_nil _ (List.cons_ne_nil _ _)
      obtain ⟨hhead, hdescend⟩ := (segments_eq_cons hnext).1 hsegments
      obtain ⟨g, hg, hpath⟩ := exists_filter_pushDown hkeys hp hf hhead
      exact ⟨[], child, g, rest, List.nil_prefix, rfl, hg, hrest, (congrArg FieldPath.segments hpath).trans hdescend⟩
    | cons next start =>
      obtain ⟨rfl, hbelow⟩ := List.cons_prefix_cons.1 hstart
      have hsegments : start ++ f.path.segments = path ++ label :: rest := List.tail_eq_of_cons_eq hsegments
      cases start with
      | nil => exact ⟨[], child, f, rest, hbelow, rfl, mem_filters_of_levelAt? hkeys hp hlevel hf, hrest, hsegments⟩
      | cons later start =>
        rw [← levelAt?_pushDown hkeys hp (List.cons_ne_nil _ _)] at hlevel
        exact ⟨later :: start, level, f, rest, hbelow, hlevel, hf, hrest, hsegments⟩

end ActionTree

/-! ## Joins of a relation -/

/-- A relation is joined once, in one way. -/
def JoinedOnce (joins : List (JoinedLevel PlannedLevel)) (label : String) (join : JoinKind) : Prop :=
  ∃ before j after, joins = before ++ j :: after ∧ j.label = label ∧ j.join = join ∧
    ∀ k ∈ before ++ after, k.label ≠ label

/-- A level that shows nothing, and neither sorts nor pages. -/
structure PlannedLevel.Unshown (l : PlannedLevel) : Prop where
  output : l.output = false
  fields : l.fields = []
  sort : l.sort = none
  limit : l.limit = none
  offset : l.offset = none

/-- A relation is joined twice in a row: first inner, where nothing is shown, sorted or paged at any level behind it,
and then outer with its page. -/
def JoinedTwice (joins : List (JoinedLevel PlannedLevel)) (label : String) (limit offset : Option UInt64) : Prop :=
  ∃ before gate shown after, joins = before ++ gate :: shown :: after ∧
    (gate.label = label ∧ gate.join = .inner ∧ gate.level.Everywhere PlannedLevel.Unshown) ∧
    (shown.label = label ∧ shown.join = .outer ∧ shown.level.output = true ∧ shown.level.limit = limit ∧
      shown.level.offset = offset) ∧
    ∀ k ∈ before ++ after, k.label ≠ label

/-- How a relation of a planned level is joined, by whether filters pass through it and by the level of the tree that it
leads to. -/
structure JoinedAs (joins : List (JoinedLevel PlannedLevel)) (label : String) (passes : Prop)
    (level : Option ActionTree) : Prop where
  inner_iff : (∃ j ∈ joins, j.label = label ∧ j.join = .inner) ↔ passes
  outer : ¬passes → label ∈ joins.map JoinedLevel.label → JoinedOnce joins label .outer
  paged : passes → ∀ shown, level = some shown → shown.ShowsPage → JoinedTwice joins label shown.limit shown.offset
  inner : passes → (∀ shown, level = some shown → ¬shown.ShowsPage) → JoinedOnce joins label .inner

theorem exists_inner_joinsOf {label : String} {rel : Relationship} {restricts : Bool} {l : PlannedLevel} :
    (∃ j ∈ joinsOf label rel restricts l, j.join = .inner) ↔ restricts = true := by
  unfold joinsOf
  cases restricts with
  | false => simp
  | true =>
    refine iff_of_true ?_ rfl
    by_cases hpaged : (l.output && l.isPaged) = true <;> simp [hpaged]

mutual

/-- A level that is left for its conditions shows nothing, and neither does any level behind it. -/
theorem unshown_onlyConditions : ∀ l : PlannedLevel, l.onlyConditions.Everywhere PlannedLevel.Unshown
  | ⟨_, _, _, _, _, _, _, relations⟩ => .intro ⟨rfl, rfl, rfl, rfl, rfl⟩ (unshown_onlyRestricting relations)

theorem unshown_onlyRestricting : ∀ joins : List (JoinedLevel PlannedLevel),
    ∀ j ∈ PlannedLevel.onlyRestricting joins, j.level.Everywhere PlannedLevel.Unshown
  | [] => nofun
  | ⟨_, _, _, level⟩ :: rest => by
    rw [PlannedLevel.onlyRestricting]
    split
    · exact List.forall_mem_cons.2 ⟨unshown_onlyConditions level, unshown_onlyRestricting rest⟩
    · exact unshown_onlyRestricting rest

end

section Levels

variable {r : Registry} {e : Entity}

theorem label_of_mem_planBranches {branches : List (Branch RoutedTree)} {joins : List (JoinedLevel PlannedLevel)}
    (h : RoutedTree.planBranches r e branches = .ok joins) {j : JoinedLevel PlannedLevel} (hj : j ∈ joins) :
    j.label ∈ branches.map Branch.label := by
  obtain ⟨b, hb, _, _, _, hj⟩ := (mem_planBranches h).1 hj
  rw [(level_of_mem_joinsOf hj).1]
  exact List.mem_map_of_mem hb

/-- The joins of a branch stand next to each other, and there are no others of its label. -/
theorem planBranches_split {branches : List (Branch RoutedTree)} (hlabels : (branches.map Branch.label).Nodup)
    {joins : List (JoinedLevel PlannedLevel)} (h : RoutedTree.planBranches r e branches = .ok joins)
    {b : Branch RoutedTree} (hb : b ∈ branches) : ∃ before after rel l, b.PlansTo r e rel l ∧
      joins = before ++ (joinsOf b.label rel b.restricts l ++ after) ∧ ∀ k ∈ before ++ after, k.label ≠ b.label := by
  induction branches generalizing joins with
  | nil => cases hb
  | cons b' rest ih =>
    obtain ⟨label, restricts, level⟩ := b'
    obtain ⟨hfirst, hrest⟩ := List.nodup_cons.1 hlabels
    obtain ⟨rel, d, inner, later, hrel, hd, hinner, hlater, rfl⟩ := RoutedTree.planBranches_cons_eq_ok.1 h
    rcases List.mem_cons.1 hb with rfl | hb
    · refine ⟨[], later, rel, inner, ⟨d, hrel, hd, hinner⟩, rfl, fun k hk he => hfirst ?_⟩
      rw [← he]
      exact label_of_mem_planBranches hlater hk
    · obtain ⟨before, after, rel', l, hplans, rfl, hothers⟩ := ih hrest hlater hb
      refine ⟨joinsOf label rel restricts inner ++ before, after, rel', l, hplans, by rw [List.append_assoc], ?_⟩
      intro k hk
      rw [List.append_assoc] at hk
      rcases List.mem_append.1 hk with hk | hk
      · rw [(level_of_mem_joinsOf hk).1]
        exact fun he => hfirst (List.mem_map.2 ⟨b, hb, he.symm⟩)
      · exact hothers k hk

variable {t child : ActionTree} {p : PlannedLevel} {label : String}

/-- A level behind a relation, after filters are handed down, is the one of the tree but for its filters. -/
theorem ActionTree.eq_of_mem_pushDown (hkeys : t.KeysDiffer) (hp : (label, child) ∈ t.pushDown) :
    child = { t.behind label with filters := child.filters } := by
  rcases (mem_pushDown hkeys).1 hp with ⟨_, rfl⟩ | ⟨_, hp⟩
  · rw [narrowed, addFilters_eq]
  · rw [behind, (Keyed.mem_iff_find? hkeys).1 hp]
    cases child
    rfl

/-- A level behind a relation shows a page after filters are handed down iff it does in the tree. -/
theorem ActionTree.showsPage_iff_of_mem_pushDown (hkeys : t.KeysDiffer) (hp : (label, child) ∈ t.pushDown) :
    child.ShowsPage ↔ ∃ shown, t.levelAt? [label] = some shown ∧ shown.ShowsPage := by
  rw [eq_of_mem_pushDown hkeys hp, behind, levelAt?_singleton]
  cases Keyed.find? label t.relations with
  | none =>
    refine iff_of_false (fun h => Bool.noConfusion h.1) ?_
    rintro ⟨shown, hlevel, _⟩
    cases hlevel
  | some level =>
    constructor
    · exact fun h => ⟨level, rfl, h⟩
    · rintro ⟨shown, hlevel, h⟩
      cases hlevel
      exact h

/-- A planned level pages what it shows iff the level of the tree does. -/
theorem showsPage_of_plan (h : t.plan r e = .ok p) : (p.output && p.isPaged) = true ↔ t.ShowsPage := by
  obtain ⟨hlimit, hoffset⟩ := paging_of_plan h
  rw [output_of_plan h, PlannedLevel.isPaged, hlimit, hoffset, Bool.and_eq_true]
  rfl

/-- How the joins of a relation look, if they stand next to each other and are those of a planned level. -/
theorem joinedAs_of_split {joins before after : List (JoinedLevel PlannedLevel)} {rel : Relationship} {restricts : Bool}
    (hplan : t.plan r e = .ok p) (hsplit : joins = before ++ (joinsOf label rel restricts p ++ after))
    (hothers : ∀ k ∈ before ++ after, k.label ≠ label) {level : Option ActionTree}
    (hpage : t.ShowsPage ↔ ∃ shown, level = some shown ∧ shown.ShowsPage)
    (hcounts : ∀ shown, level = some shown → t.limit = shown.limit ∧ t.offset = shown.offset) :
    JoinedAs joins label (restricts = true) level := by
  subst hsplit
  have hpaged := showsPage_of_plan hplan
  refine ⟨?_, fun hpasses _ => ?_, fun hpasses shown hlevel hshown => ?_, fun hpasses hunshown => ?_⟩
  · rw [← exists_inner_joinsOf]
    constructor
    · rintro ⟨j, hj, hlabel, hinner⟩
      rcases List.mem_append.1 hj with hj | hj
      · exact absurd hlabel (hothers j (List.mem_append_left _ hj))
      · rcases List.mem_append.1 hj with hj | hj
        · exact ⟨j, hj, hinner⟩
        · exact absurd hlabel (hothers j (List.mem_append_right _ hj))
    · rintro ⟨j, hj, hinner⟩
      exact ⟨j, List.mem_append_right _ (List.mem_append_left _ hj), (level_of_mem_joinsOf hj).1, hinner⟩
  · rw [Bool.not_eq_true] at hpasses
    subst hpasses
    exact ⟨before, ⟨label, rel, .outer, p⟩, after, rfl, rfl, rfl, hothers⟩
  · subst hpasses
    have hp : (p.output && p.isPaged) = true := hpaged.2 (hpage.2 ⟨shown, hlevel, hshown⟩)
    obtain ⟨hlimit, hoffset⟩ := paging_of_plan hplan
    obtain ⟨hlimit', hoffset'⟩ := hcounts shown hlevel
    refine ⟨before, ⟨label, rel, .inner, p.onlyConditions⟩, ⟨label, rel, .outer, p⟩, after, ?_,
      ⟨rfl, rfl, unshown_onlyConditions p⟩,
      ⟨rfl, rfl, (Bool.and_eq_true_iff.1 hp).1, hlimit.trans hlimit', hoffset.trans hoffset'⟩, hothers⟩
    simp [joinsOf, hp]
  · subst hpasses
    have hp : ¬(p.output && p.isPaged) = true := fun hp => by
      obtain ⟨shown, hlevel, hshown⟩ := hpage.1 (hpaged.1 hp)
      exact hunshown shown hlevel hshown
    refine ⟨before, ⟨label, rel, .inner, p⟩, after, ?_, rfl, rfl, hothers⟩
    simp only [joinsOf, if_neg hp]
    rfl

/-- The joins of a planned level, relation by relation. -/
theorem joinedAs_of_plan (hkeys : t.KeysDiffer) (h : t.plan r e = .ok p) (label : String) :
    JoinedAs p.relations label (label ∈ heads t.filters) (t.levelAt? [label]) := by
  have hbranches := planBranches_plan hkeys h
  have hlabels : (t.pushDown.map (ActionTree.branchOf (heads t.filters))).map Branch.label = Keyed.keys t.pushDown := by
    rw [List.map_map]
    rfl
  by_cases hmem : ∃ child, (label, child) ∈ t.pushDown
  · obtain ⟨child, hp⟩ := hmem
    obtain ⟨before, after, rel, l, ⟨d, _, _, hl⟩, hsplit, hothers⟩ := planBranches_split
      (hlabels ▸ ActionTree.nodup_keys_pushDown hkeys) hbranches (List.mem_map_of_mem hp)
    rw [← @decide_eq_true_eq (label ∈ heads t.filters)]
    refine joinedAs_of_split hl hsplit hothers (ActionTree.showsPage_iff_of_mem_pushDown hkeys hp)
      fun shown hlevel => ?_
    rw [ActionTree.eq_of_mem_pushDown hkeys hp, ActionTree.behind_of_levelAt? hlevel]
    exact ⟨rfl, rfl⟩
  · have hnone : label ∉ p.relations.map JoinedLevel.label := fun hlabel => hmem (by
      obtain ⟨j, hj, rfl⟩ := List.mem_map.1 hlabel
      have hkey := label_of_mem_planBranches hbranches hj
      rw [hlabels] at hkey
      obtain ⟨⟨_, child⟩, hp, rfl⟩ := List.mem_map.1 hkey
      exact ⟨child, hp⟩)
    have hplain : label ∉ heads t.filters := fun hheads =>
      hmem ⟨_, (ActionTree.mem_pushDown hkeys).2 (.inl ⟨hheads, rfl⟩)⟩
    refine ⟨iff_of_false ?_ hplain, fun _ hlabel => absurd hlabel hnone, fun hpasses => absurd hpasses hplain,
      fun hpasses => absurd hpasses hplain⟩
    rintro ⟨j, hj, hlabel, _⟩
    exact hnone (List.mem_map.2 ⟨j, hj, hlabel⟩)

/-! ## Levels that are reached -/

/-- Whether a path leads from one level of a plan to another one. A join that is left for the conditions of a relation,
beside an outer join of it, is not followed. -/
inductive PlannedLevel.Reaches : PlannedLevel → List String → PlannedLevel → Prop
  | here (l : PlannedLevel) : Reaches l [] l
  | behind {l target : PlannedLevel} {j : JoinedLevel PlannedLevel} {path : List String} (hj : j ∈ l.relations)
      (hcounts : ¬(j.join = .inner ∧ j.label ∈ outerLabels l.relations)) (h : Reaches j.level path target) :
      Reaches l (j.label :: path) target

/-- A join that is followed leads to the level behind a relation of the tree, after filters are handed down. -/
theorem exists_pushDown_of_counts (hkeys : t.KeysDiffer) (h : t.plan r e = .ok p) {j : JoinedLevel PlannedLevel}
    (hj : j ∈ p.relations) (hcounts : ¬(j.join = .inner ∧ j.label ∈ outerLabels p.relations)) :
    ∃ child d, (j.label, child) ∈ t.pushDown ∧ child.plan r d = .ok j.level := by
  obtain ⟨label, child, hp, rel, l, ⟨d, hrel, hd, hl⟩, hmem⟩ := (mem_relations_plan hkeys h).1 hj
  obtain ⟨rfl, _, hlevel | ⟨hinner, _, hmore⟩⟩ := level_of_mem_joinsOf hmem
  · exact ⟨child, d, hp, hlevel ▸ hl⟩
  · have hshown := (mem_relations_plan hkeys h).2 ⟨_, child, hp, rel, l, ⟨d, hrel, hd, hl⟩, hmore⟩
    have houter : j.label ∈ outerLabels p.relations :=
      List.mem_map.2 ⟨_, List.mem_filter.2 ⟨hshown, decide_eq_true rfl⟩, rfl⟩
    exact absurd ⟨hinner, houter⟩ hcounts

end Levels

/-- **A relation is joined inner exactly when a filter passes through it.** For every level of a plan and every label:
a join of that label is inner iff a filter of the tree, written at the level or on the way to it, goes on through the
relation. If none does, the relation is joined once, and outer. If one does and the relation leads to a level that shows
a page, it is joined twice in a row, first inner with nothing shown, sorted or paged, and then outer with the page;
otherwise it is joined once. Relations are filed under their names, so those of a level differ. -/
theorem joinedAs_of_reaches {r : Registry} {e : Entity} {t : ActionTree} {root l : PlannedLevel} {path : List String}
    (hkeys : t.Everywhere ActionTree.KeysDiffer) (h : t.plan r e = .ok root) (hl : root.Reaches path l)
    (label : String) : JoinedAs l.relations label (t.Passes path label) (t.levelAt? (path ++ [label])) := by
  induction t, hkeys using ActionTree.pushDown_induction generalizing e root path with
  | step t hkeys ih =>
    cases hl with
    | here =>
      rw [ActionTree.passes_nil]
      exact joinedAs_of_plan hkeys.here h label
    | behind hj hcounts hl =>
      obtain ⟨child, d, hp, hchild⟩ := exists_pushDown_of_counts hkeys.here h hj hcounts
      have hbelow := ih _ hp hchild hl
      rwa [ActionTree.passes_pushDown hkeys.here hp, ActionTree.levelAt?_pushDown hkeys.here hp
        (List.append_ne_nil_of_right_ne_nil _ (List.cons_ne_nil _ _))] at hbelow

/-- Tasks with a step that belongs to a certain task, each with the first of its steps; a step is shown with its task
and its peers. -/
def tasksBehindSteps : ActionTree :=
  { ActionTree.empty with
    filters := [⟨⟨["steps", "task"], "label"⟩, .like, .string "a%"⟩]
    relations := [("steps", { ActionTree.empty with
      name := some "steps"
      limit := some 1
      relations := [("task", { ActionTree.empty with name := some "task", select := .fields [.field "id"] }),
        ("peers", { ActionTree.empty with name := some "peers", select := .fields [.field "id"] })] })] }

theorem joinedAs_of_reaches_steps : tasksBehindSteps.Everywhere ActionTree.KeysDiffer ∧
    ∃ root steps, tasksBehindSteps.plan taskRegistry taskEntity = .ok root ∧ root.Reaches ["steps"] steps ∧
      JoinedTwice root.relations "steps" (some 1) none ∧ JoinedOnce steps.relations "task" .inner ∧
      ¬tasksBehindSteps.Passes ["steps"] "peers" ∧ JoinedOnce steps.relations "peers" .outer := by
  have hkeys : tasksBehindSteps.Everywhere ActionTree.KeysDiffer := by
    have hlabels : ["task", "peers"].Nodup := by decide
    refine .intro (List.pairwise_singleton _ _) fun p hp => ?_
    cases List.mem_singleton.1 hp
    refine .intro hlabels fun p hp => ?_
    rcases List.mem_pair.1 hp with rfl | rfl <;> exact .intro List.nodup_nil nofun
  obtain ⟨root, hroot, gate, shown, hjoins, hlabel, hshown, hbelow⟩ :
      ∃ root, tasksBehindSteps.plan taskRegistry taskEntity = .ok root ∧ ∃ gate shown, root.relations = [gate, shown] ∧
        shown.label = "steps" ∧ shown.join = .outer ∧
        shown.level.relations.map (fun j => (j.label, j.join)) = [("task", .inner), ("peers", .outer)] :=
    ⟨_, rfl, _, _, rfl, rfl, rfl, rfl⟩
  have hreaches : root.Reaches ["steps"] shown.level := by
    have hmem : shown ∈ root.relations := by
      rw [hjoins]
      exact List.mem_pair.2 (.inr rfl)
    rw [← hlabel]
    exact .behind hmem (fun h => JoinKind.noConfusion (h.1.symm.trans hshown)) (.here _)
  have hsteps : tasksBehindSteps.Passes [] "steps" :=
    ⟨[], _, _, ["task", "label"], List.nil_prefix, rfl, List.mem_singleton_self _, List.cons_ne_nil _ _, rfl⟩
  have htask : tasksBehindSteps.Passes ["steps"] "task" :=
    ⟨[], _, _, ["label"], List.nil_prefix, rfl, List.mem_singleton_self _, List.cons_ne_nil _ _, rfl⟩
  have hpeers := joinedAs_of_reaches hkeys hroot hreaches "peers"
  have hnone : ¬tasksBehindSteps.Passes ["steps"] "peers" := fun hpasses => by
    obtain ⟨j, hj, hlabel, hinner⟩ := hpeers.inner_iff.2 hpasses
    have hmem : ("peers", JoinKind.inner) ∈ shown.level.relations.map fun j => (j.label, j.join) :=
      List.mem_map.2 ⟨j, hj, by rw [hlabel, hinner]⟩
    rw [hbelow] at hmem
    exact absurd hmem (by decide)
  refine ⟨hkeys, root, shown.level, hroot, hreaches, ?_, ?_, hnone, hpeers.outer hnone ?_⟩
  · exact (joinedAs_of_reaches hkeys hroot (.here root) "steps").paged hsteps _ rfl ⟨rfl, rfl⟩
  · refine (joinedAs_of_reaches hkeys hroot hreaches "task").inner htask fun task hlevel hpage => ?_
    cases hlevel
    exact Bool.noConfusion hpage.2
  · have hlabels : shown.level.relations.map JoinedLevel.label = ["task", "peers"] := by
      have h := congrArg (List.map Prod.fst) hbelow
      rwa [List.map_map] at h
    rw [hlabels]
    decide

end TreeQuery
