import TreeQuery.ActionTree.Route
import TreeQuery.Proofs.Everywhere

/-!
# Handing filters down

Routing sends every condition to its level at once. It can also be done one level at a time: a level hands each of its
dotted filters to the level behind the first relation of the path (`pushDown`), where the filter counts like one that
was written there. Then the branches of a routed tree are the routed levels behind the relations of the tree after it
has handed its filters down (`branches_route`), and a property of trees can be proved level by level from the top
(`pushDown_induction`).

The step is that a filter added to a level is a condition placed in its routed tree (`route_addFilter`).
-/

namespace TreeQuery

/-! ## Filters of a level -/

theorem Filter.same_trans {f g k : Filter} (hfg : f.same g = true) (hgk : g.same k = true) : f.same k = true := by
  simp only [Filter.same, Bool.and_eq_true, beq_iff_eq] at *
  obtain ⟨⟨hpath, hop⟩, hvalue⟩ := hfg
  obtain ⟨⟨hpath', hop'⟩, hvalue'⟩ := hgk
  exact ⟨⟨hpath.trans hpath', hop.trans hop'⟩, Value.same_trans hvalue hvalue'⟩

theorem Condition.same_trans {c d x : Condition} (hcd : c.same d = true) (hdx : d.same x = true) :
    c.same x = true := by
  simp only [Condition.same, Bool.and_eq_true, beq_iff_eq] at *
  obtain ⟨⟨hfield, hop⟩, hvalue⟩ := hcd
  obtain ⟨⟨hfield', hop'⟩, hvalue'⟩ := hdx
  exact ⟨⟨hfield.trans hfield', hop.trans hop'⟩, Value.same_trans hvalue hvalue'⟩

/-- Filters with one path are the same iff their conditions are. -/
theorem Filter.same_iff {f g : Filter} :
    f.same g = true ↔ f.path.via = g.path.via ∧ f.condition.same g.condition = true := by
  obtain ⟨⟨via, field⟩, op, v⟩ := f
  obtain ⟨⟨via', field'⟩, op', w⟩ := g
  simp only [Filter.same, Filter.condition, Condition.same, Bool.and_eq_true, beq_iff_eq, FieldPath.mk.injEq]
  rw [and_assoc, and_assoc, and_assoc]

theorem FieldPath.isDotted_eq_false {p : FieldPath} : p.isDotted = false ↔ p.via = [] := by
  simp [FieldPath.isDotted]

/-- Two filters that are equal, or that say the same. -/
def Filter.Like (f g : Filter) : Prop := f = g ∨ f.same g = true

theorem Filter.Like.trans {f g k : Filter} (hfg : f.Like g) (hgk : g.Like k) : f.Like k := by
  rcases hfg with rfl | hfg
  · exact hgk
  · rcases hgk with rfl | hgk
    · exact .inr hfg
    · exact .inr (Filter.same_trans hfg hgk)

theorem Filter.Like.path {f g : Filter} (h : f.Like g) : f.path = g.path := by
  rcases h with rfl | h
  · rfl
  · simp only [Filter.same, Bool.and_eq_true, beq_iff_eq] at h
    exact h.1.1

/-- A filter as seen from the level that its first relation leads to. -/
def Filter.descend (f : Filter) : Filter := { f with path := f.path.descend }

/-- The relations that the dotted ones of some filters start with. -/
def heads (filters : List Filter) : List String := filters.filterMap fun f => f.path.via.head?

/-- The filters that start with a relation, as seen from the level behind it. -/
def through (head : String) (filters : List Filter) : List Filter :=
  (filters.filter fun f => f.path.via.head? = some head).map Filter.descend

theorem mem_heads {filters : List Filter} {head : String} :
    head ∈ heads filters ↔ ∃ f ∈ filters, f.path.via.head? = some head := List.mem_filterMap

theorem mem_through {filters : List Filter} {head : String} {f : Filter} :
    f ∈ through head filters ↔ ∃ g ∈ filters, g.path.via.head? = some head ∧ g.descend = f := by
  simp only [through, List.mem_map, List.mem_filter, decide_eq_true_eq, and_assoc]

theorem heads_of_plain {f : Filter} (hf : f.path.via = []) (filters : List Filter) :
    heads (f :: filters) = heads filters := by simp [heads, hf]

theorem heads_of_dotted {f : Filter} {head : String} {via : List String} (hf : f.path.via = head :: via)
    (filters : List Filter) : heads (f :: filters) = head :: heads filters := by simp [heads, hf]

theorem through_of_dotted {f : Filter} {head : String} {via : List String} (hf : f.path.via = head :: via)
    (filters : List Filter) : through head (f :: filters) = f.descend :: through head filters := by simp [through, hf]

theorem through_of_ne {f : Filter} {label : String} (hf : f.path.via.head? ≠ some label) (filters : List Filter) :
    through label (f :: filters) = through label filters := by simp [through, hf]

theorem through_eq_nil {label : String} {filters : List Filter} (h : label ∉ heads filters) :
    through label filters = [] := by
  refine List.eq_nil_iff_forall_not_mem.2 fun g hg => h ?_
  obtain ⟨g', hg', hhead, _⟩ := mem_through.1 hg
  exact mem_heads.2 ⟨g', hg', hhead⟩

/-! ## Placing conditions -/

namespace RoutedTree

/-- Some branches with the condition of a dotted filter placed behind them. -/
def placeBranch (branches : List (Branch RoutedTree)) (f : Filter) : List (Branch RoutedTree) :=
  match f.path.via with
  | [] => branches
  | head :: via => restrict head (place f.condition via) branches

theorem placeBranch_of_plain {f : Filter} (hf : f.path.via = []) (branches : List (Branch RoutedTree)) :
    placeBranch branches f = branches := by rw [placeBranch, hf]

theorem placeBranch_of_dotted {f : Filter} {head : String} {via : List String} (hf : f.path.via = head :: via)
    (branches : List (Branch RoutedTree)) :
    placeBranch branches f = restrict head (place f.condition via) branches := by rw [placeBranch, hf]

/-- Placing dotted filters changes nothing but the branches. -/
theorem placeAll_eq (filters : List Filter) (t : RoutedTree) :
    t.placeAll filters = { t with branches := filters.foldl placeBranch t.branches } := by
  induction filters generalizing t with
  | nil => cases t; rfl
  | cons f filters ih =>
    show placeAll (if f.path.isDotted then t.place f.condition f.path.via else t) filters = _
    rw [ih, List.foldl_cons]
    cases hv : f.path.via with
    | nil => simp [FieldPath.isDotted, placeBranch, hv]
    | cons head via => simp [FieldPath.isDotted, placeBranch, hv, place]

theorem placeAll_append (t : RoutedTree) (fs gs : List Filter) : t.placeAll (fs ++ gs) = (t.placeAll fs).placeAll gs :=
  List.foldl_append

/-- The first branch with a label. -/
def branch? (label : String) (branches : List (Branch RoutedTree)) : Option (Branch RoutedTree) :=
  branches.find? (·.label = label)

theorem branch?_cons (label : String) (b : Branch RoutedTree) (branches : List (Branch RoutedTree)) :
    branch? label (b :: branches) = if b.label = label then some b else branch? label branches := by
  unfold branch?
  rw [List.find?_cons]
  by_cases h : b.label = label <;> simp [h]

theorem branch?_restrict_self (label : String) (f : RoutedTree → RoutedTree) (branches : List (Branch RoutedTree)) :
    branch? label (restrict label f branches) =
      some ⟨label, true, f (((branch? label branches).map Branch.level).getD unselected)⟩ := by
  induction branches with
  | nil => simp [restrict, branch?]
  | cons b rest ih =>
    by_cases h : b.label = label
    · simp [restrict, branch?_cons, h]
    · simp [restrict, branch?_cons, h, ih]

theorem branch?_restrict_of_ne {label label' : String} (hne : label' ≠ label) (f : RoutedTree → RoutedTree)
    (branches : List (Branch RoutedTree)) : branch? label' (restrict label f branches) = branch? label' branches := by
  induction branches with
  | nil => simp [restrict, branch?, Ne.symm hne]
  | cons b rest ih =>
    by_cases h : b.label = label
    · have hb : b.label ≠ label' := fun he => hne (he.symm.trans h)
      simp [restrict, branch?_cons, h, Ne.symm hne]
    · simp only [restrict, if_neg h, branch?_cons, ih]

/-- A branch that restricts and is not changed stays as it is. -/
theorem restrict_eq_self {label : String} {f : RoutedTree → RoutedTree} {b : Branch RoutedTree}
    {branches : List (Branch RoutedTree)} (hb : branch? label branches = some b) (hrestricts : b.restricts = true)
    (hf : f b.level = b.level) : restrict label f branches = branches := by
  induction branches with
  | nil => cases hb
  | cons b' rest ih =>
    rw [branch?_cons] at hb
    by_cases h : b'.label = label
    · rw [if_pos h] at hb
      cases hb
      rw [restrict, if_pos h, hf, ← hrestricts]
    · rw [if_neg h] at hb
      rw [restrict, if_neg h, ih hb]

/-- Whether a path of relations restricts, and a condition or the same one stands at its end. -/
def Holds (c : Condition) : List String → RoutedTree → Prop
  | [], t => t.conditions.any c.same = true
  | head :: via, t => ∃ b, branch? head t.branches = some b ∧ b.restricts = true ∧ Holds c via b.level

/-- A condition that is there is not placed again. -/
theorem place_of_holds {c : Condition} {via : List String} {t : RoutedTree} (h : t.Holds c via) :
    t.place c via = t := by
  induction via generalizing t with
  | nil =>
    have hconditions : addCondition t.conditions c = t.conditions := if_pos h
    rw [place, hconditions]
    cases t
    rfl
  | cons head via ih =>
    obtain ⟨b, hb, hrestricts, hlevel⟩ := h
    rw [place, restrict_eq_self hb hrestricts (ih hlevel)]
    cases t
    rfl

theorem any_addCondition_self {c d : Condition} (hcd : c.same d = true) (conditions : List Condition) :
    (addCondition conditions d).any c.same = true := by
  unfold addCondition
  split
  · rename_i hd
    obtain ⟨x, hx, hdx⟩ := List.any_eq_true.1 hd
    exact List.any_eq_true.2 ⟨x, hx, Condition.same_trans hcd hdx⟩
  · exact List.any_eq_true.2 ⟨d, List.mem_append_right _ (List.mem_singleton_self d), hcd⟩

theorem holds_place_self {c d : Condition} (hcd : c.same d = true) (via : List String) (t : RoutedTree) :
    (t.place d via).Holds c via := by
  induction via generalizing t with
  | nil => exact any_addCondition_self hcd t.conditions
  | cons head via ih => exact ⟨_, branch?_restrict_self head _ _, rfl, ih _⟩

/-- What is there stays there. -/
theorem holds_place {c : Condition} {via : List String} {t : RoutedTree} (h : t.Holds c via) (d : Condition)
    (via' : List String) : (t.place d via').Holds c via := by
  induction via generalizing t via' with
  | nil =>
    cases via' with
    | nil =>
      obtain ⟨x, hx, hcx⟩ := List.any_eq_true.1 h
      refine List.any_eq_true.2 ⟨x, ?_, hcx⟩
      rw [place, addCondition]
      split
      · exact hx
      · exact List.mem_append_left _ hx
    | cons head' via' => exact h
  | cons head via ih =>
    cases via' with
    | nil => exact h
    | cons head' via' =>
      obtain ⟨b, hb, hrestricts, hlevel⟩ := h
      by_cases he : head = head'
      · subst he
        refine ⟨_, branch?_restrict_self head _ _, rfl, ?_⟩
        rw [hb]
        exact ih hlevel via'
      · exact ⟨b, (branch?_restrict_of_ne he _ _).trans hb, hrestricts, hlevel⟩

theorem holds_placeAll {c : Condition} {via : List String} {t : RoutedTree} (h : t.Holds c via)
    (filters : List Filter) :
    (t.placeAll filters).Holds c via := by
  induction filters generalizing t with
  | nil => exact h
  | cons f filters ih =>
    show (placeAll (if f.path.isDotted then t.place f.condition f.path.via else t) filters).Holds c via
    split
    · exact ih (holds_place h _ _)
    · exact ih h

theorem holds_placeAll_of_mem {f g : Filter} {filters : List Filter} (hg : g ∈ filters) (hsame : f.same g = true)
    (hdotted : f.path.isDotted = true) (t : RoutedTree) : (t.placeAll filters).Holds f.condition f.path.via := by
  obtain ⟨hvia, hcondition⟩ := Filter.same_iff.1 hsame
  obtain ⟨before, after, rfl⟩ := List.append_of_mem hg
  have hg : g.path.isDotted = true := by rw [FieldPath.isDotted, ← hvia]; exact hdotted
  rw [placeAll_append]
  show (placeAll (if g.path.isDotted then _ else _) after).Holds _ _
  rw [if_pos hg, hvia]
  exact holds_placeAll (holds_place_self hcondition _ _) after

end RoutedTree

/-! ## Adding filters -/

theorem mem_addFilter_of_mem {filters : List Filter} {f : Filter} (h : f ∈ filters) (g : Filter) :
    f ∈ addFilter filters g := by
  unfold addFilter
  split
  · exact h
  · exact List.mem_append_left _ h

theorem exists_like_addFilter (filters : List Filter) (f : Filter) : ∃ g ∈ addFilter filters f, f.Like g := by
  unfold addFilter
  split
  · rename_i h
    obtain ⟨g, hg, hsame⟩ := List.any_eq_true.1 h
    exact ⟨g, hg, .inr hsame⟩
  · exact ⟨f, List.mem_append_right _ (List.mem_singleton_self f), .inl rfl⟩

/-- Some filters with more added in order. -/
def addAll (filters more : List Filter) : List Filter := more.foldl addFilter filters

/-- Adding filters makes none up. -/
theorem mem_or_mem_of_mem_addAll {filters more : List Filter} {f : Filter} (h : f ∈ addAll filters more) :
    f ∈ filters ∨ f ∈ more := by
  induction more generalizing filters with
  | nil => exact .inl h
  | cons g more ih =>
    rcases ih h with h | h
    · unfold addFilter at h
      split at h
      · exact .inl h
      · rcases List.mem_append.1 h with h | h
        · exact .inl h
        · exact .inr (List.mem_cons.2 (.inl (List.mem_singleton.1 h)))
    · exact .inr (List.mem_cons_of_mem _ h)

theorem mem_addAll_of_mem {filters : List Filter} {f : Filter} (h : f ∈ filters) (more : List Filter) :
    f ∈ addAll filters more := by
  induction more generalizing filters with
  | nil => exact h
  | cons g more ih => exact ih (mem_addFilter_of_mem h g)

/-- Adding filters loses none: an added one is there, or one that says the same. -/
theorem exists_like_addAll {more : List Filter} {f : Filter} (h : f ∈ more) (filters : List Filter) :
    ∃ g ∈ addAll filters more, f.Like g := by
  induction more generalizing filters with
  | nil => cases h
  | cons g more ih =>
    rcases List.mem_cons.1 h with rfl | h
    · obtain ⟨g, hg, hlike⟩ := exists_like_addFilter filters f
      exact ⟨g, mem_addAll_of_mem hg more, hlike⟩
    · exact ih h _

theorem plainConditions_append (fs gs : List Filter) :
    plainConditions (fs ++ gs) = plainConditions fs ++ plainConditions gs := by
  simp only [plainConditions, List.filter_append, List.map_append]

theorem mem_plainConditions {filters : List Filter} {c : Condition} :
    c ∈ plainConditions filters ↔ ∃ f ∈ filters, f.path.via = [] ∧ f.condition = c := by
  simp only [plainConditions, List.mem_map, List.mem_filter, Bool.not_eq_true', FieldPath.isDotted_eq_false, and_assoc]

namespace ActionTree

open RoutedTree

theorem routeRelations_eq_map (relations : List (String × ActionTree)) :
    routeRelations relations = relations.map fun (label, child) => ⟨label, false, child.route⟩ := by
  induction relations with
  | nil => rfl
  | cons p rest ih => rw [routeRelations, ih, List.map_cons]

theorem route_eq (t : ActionTree) : t.route =
    ⟨t.select, plainConditions t.filters, t.sort, t.limit, t.offset,
      t.filters.foldl placeBranch (routeRelations t.relations)⟩ := by
  obtain ⟨_, select, filters, sort, limit, offset, relations⟩ := t
  rw [route, placeAll_eq]

/-- Routing does not change what a level shows. -/
theorem select_route (t : ActionTree) : t.route.select = t.select := by rw [route_eq]

/-- **A filter added to a level is a condition placed in its routed tree.** -/
theorem route_addFilter (t : ActionTree) (f : Filter) :
    (t.addFilter f).route = t.route.place f.condition f.path.via := by
  obtain ⟨name, select, filters, sort, limit, offset, relations⟩ := t
  by_cases hany : filters.any f.same = true
  · -- the same filter is there, and so its condition has been placed
    have hfilters : TreeQuery.addFilter filters f = filters := if_pos hany
    rw [addFilter, hfilters]
    obtain ⟨g, hg, hsame⟩ := List.any_eq_true.1 hany
    obtain ⟨hvia, hcondition⟩ := Filter.same_iff.1 hsame
    refine (place_of_holds ?_).symm
    cases hf : f.path.isDotted with
    | true =>
      rw [route]
      exact holds_placeAll_of_mem hg hsame hf _
    | false =>
      rw [FieldPath.isDotted_eq_false.1 hf, route_eq]
      have hplain : g.condition ∈ plainConditions filters :=
        mem_plainConditions.2 ⟨g, hg, hvia.symm.trans (FieldPath.isDotted_eq_false.1 hf), rfl⟩
      exact List.any_eq_true.2 ⟨_, hplain, hcondition⟩
  · have hfilters : TreeQuery.addFilter filters f = filters ++ [f] := if_neg hany
    rw [addFilter, hfilters, route_eq, route_eq]
    simp only [plainConditions_append, List.foldl_append, List.foldl_cons, List.foldl_nil]
    cases hf : f.path.via with
    | nil =>
      have hnew : (plainConditions filters).any f.condition.same ≠ true := by
        intro h
        obtain ⟨c, hc, hsame⟩ := List.any_eq_true.1 h
        obtain ⟨g, hg, hvia, rfl⟩ := mem_plainConditions.1 hc
        exact hany (List.any_eq_true.2 ⟨g, hg, Filter.same_iff.2 ⟨hf.trans hvia.symm, hsame⟩⟩)
      have hplain : plainConditions [f] = [f.condition] := by simp [plainConditions, FieldPath.isDotted, hf]
      simp only [place, addCondition, if_neg hnew, hplain, placeBranch, hf]
    | cons head via =>
      have hplain : plainConditions [f] = [] := by simp [plainConditions, FieldPath.isDotted, hf]
      simp only [place, hplain, placeBranch, hf, List.append_nil]

/-! ## Handing filters down -/

/-- The level behind a relation; if there is none, one that no one selected. -/
def behind (t : ActionTree) (head : String) : ActionTree := (Keyed.find? head t.relations).getD (unselected head)

/-- The level with some filters added in order. -/
def addFilters (t : ActionTree) (filters : List Filter) : ActionTree := filters.foldl addFilter t

theorem addFilters_eq (t : ActionTree) (filters : List Filter) :
    t.addFilters filters = { t with filters := addAll t.filters filters } := by
  induction filters generalizing t with
  | nil => cases t; rfl
  | cons f filters ih =>
    show (t.addFilter f).addFilters filters = _
    rw [ih]
    rfl

/-- The level behind a relation with the filters that go through the relation. -/
def narrowed (t : ActionTree) (head : String) : ActionTree := (t.behind head).addFilters (through head t.filters)

/-- Relations with a dotted filter handed to the level behind the first relation of its path. -/
def handDown (relations : List (String × ActionTree)) (f : Filter) : List (String × ActionTree) :=
  match f.path.via with
  | [] => relations
  | head :: _ => Keyed.alter head (fun child => (child.getD (unselected head)).addFilter f.descend) relations

/-- The relations of a level after it has handed its dotted filters down. -/
def pushDown (t : ActionTree) : List (String × ActionTree) := t.filters.foldl handDown t.relations

theorem handDown_of_plain {f : Filter} (hf : f.path.via = []) (relations : List (String × ActionTree)) :
    handDown relations f = relations := by rw [handDown, hf]

theorem handDown_of_dotted {f : Filter} {head : String} {via : List String} (hf : f.path.via = head :: via)
    (relations : List (String × ActionTree)) : handDown relations f =
      Keyed.alter head (fun child => (child.getD (unselected head)).addFilter f.descend) relations := by
  rw [handDown, hf]

theorem nodup_keys_handDown {relations : List (String × ActionTree)} (hkeys : (Keyed.keys relations).Nodup)
    (f : Filter) : (Keyed.keys (handDown relations f)).Nodup := by
  unfold handDown
  split
  · exact hkeys
  · exact Keyed.nodup_keys_alter hkeys

theorem nodup_keys_foldl_handDown (filters : List Filter) {relations : List (String × ActionTree)}
    (hkeys : (Keyed.keys relations).Nodup) : (Keyed.keys (filters.foldl handDown relations)).Nodup := by
  induction filters generalizing relations with
  | nil => exact hkeys
  | cons f filters ih => exact ih (nodup_keys_handDown hkeys f)

theorem nodup_keys_pushDown {t : ActionTree} (hkeys : (Keyed.keys t.relations).Nodup) :
    (Keyed.keys t.pushDown).Nodup := nodup_keys_foldl_handDown t.filters hkeys

/-! ### Finding levels -/

/-- After filters are handed down, the level behind a relation that some of them go through has these filters, and any
other is as it was. -/
theorem find?_foldl_handDown (filters : List Filter) (relations : List (String × ActionTree)) (label : String) :
    Keyed.find? label (filters.foldl handDown relations) =
      if label ∈ heads filters then
        some (((Keyed.find? label relations).getD (unselected label)).addFilters (through label filters))
      else Keyed.find? label relations := by
  induction filters generalizing relations with
  | nil => rfl
  | cons f filters ih =>
    rw [List.foldl_cons, ih]
    cases hv : f.path.via with
    | nil => rw [handDown_of_plain hv, heads_of_plain hv, through_of_ne (by simp [hv])]
    | cons head via =>
      rw [handDown_of_dotted hv, heads_of_dotted hv]
      by_cases h : label = head
      · subst h
        rw [Keyed.find?_alter_self, through_of_dotted hv, if_pos List.mem_cons_self]
        split
        · rfl
        · rename_i hnone
          rw [through_eq_nil hnone]
          rfl
      · rw [Keyed.find?_alter_of_ne h, through_of_ne (by simp [hv, Ne.symm h])]
        simp only [List.mem_cons, h, false_or]

theorem find?_pushDown (t : ActionTree) (label : String) : Keyed.find? label t.pushDown =
    if label ∈ heads t.filters then some (t.narrowed label) else Keyed.find? label t.relations :=
  find?_foldl_handDown t.filters t.relations label

/-! ### Routing -/

/-- The branch that a relation becomes, if filters have gone through some relations. -/
def branchOf (restricting : List String) (p : String × ActionTree) : Branch RoutedTree :=
  ⟨p.1, decide (p.1 ∈ restricting), p.2.route⟩

theorem map_branchOf_congr {a b : List String} {relations : List (String × ActionTree)}
    (h : ∀ p ∈ relations, p.1 ∈ a ↔ p.1 ∈ b) : relations.map (branchOf a) = relations.map (branchOf b) := by
  refine List.map_congr_left fun p hp => ?_
  simp only [branchOf, h p hp]

theorem restrict_map_branchOf {restricting : List String} {head : String} {via : List String} {f : Filter}
    (hf : f.path.via = head :: via) {relations : List (String × ActionTree)} (hkeys : (Keyed.keys relations).Nodup) :
    restrict head (place f.condition via) (relations.map (branchOf restricting)) =
      (handDown relations f).map (branchOf (head :: restricting)) := by
  have hplace (child : ActionTree) : child.route.place f.condition via = (child.addFilter f.descend).route := by
    rw [route_addFilter]
    simp [Filter.descend, FieldPath.descend, Filter.condition, hf]
  have hhead (child : ActionTree) :
      branchOf (head :: restricting) (head, child) = ⟨head, true, child.route⟩ := by simp [branchOf]
  rw [handDown_of_dotted hf]
  induction relations with
  | nil => rw [List.map_nil, restrict, Keyed.alter, List.map_cons, hhead, Option.getD_none, ← hplace]; rfl
  | cons p rest ih =>
    obtain ⟨k, child⟩ := p
    obtain ⟨hk, hrest⟩ := List.nodup_cons.1 hkeys
    have hlabel : (branchOf restricting (k, child)).label = k := rfl
    rw [List.map_cons, restrict, Keyed.alter, hlabel]
    by_cases h : k = head
    · subst h
      have hlater : rest.map (branchOf restricting) = rest.map (branchOf (k :: restricting)) := by
        refine map_branchOf_congr fun p hp => ?_
        have hmem : p.1 ∈ Keyed.keys rest := List.mem_map_of_mem hp
        have hne : p.1 ≠ k := fun he => hk (he ▸ hmem)
        simp [hne]
      rw [if_pos rfl, if_pos rfl, List.map_cons, hhead, Option.getD_some, ← hplace, hlater]
      rfl
    · rw [if_neg h, if_neg h, List.map_cons, ih hrest]
      simp only [branchOf, List.mem_cons, h, false_or]

theorem foldl_placeBranch (filters : List Filter) {restricting : List String} {relations : List (String × ActionTree)}
    (hkeys : (Keyed.keys relations).Nodup) :
    filters.foldl placeBranch (relations.map (branchOf restricting)) =
      (filters.foldl handDown relations).map (branchOf (heads filters ++ restricting)) := by
  induction filters generalizing restricting relations with
  | nil => rfl
  | cons f filters ih =>
    rw [List.foldl_cons, List.foldl_cons]
    cases hv : f.path.via with
    | nil => rw [placeBranch_of_plain hv, handDown_of_plain hv, heads_of_plain hv, ih hkeys]
    | cons head via =>
      rw [placeBranch_of_dotted hv, restrict_map_branchOf hv hkeys, ih (nodup_keys_handDown hkeys f),
        heads_of_dotted hv]
      refine map_branchOf_congr fun p _ => ?_
      simp only [List.mem_append, List.mem_cons]
      exact or_left_comm.trans or_assoc.symm

/-- **A routed tree, one level at a time.** Its branches are the routed levels behind the relations of the tree after
the tree has handed its filters down; those restrict that a filter has gone through. -/
theorem branches_route {t : ActionTree} (hkeys : (Keyed.keys t.relations).Nodup) :
    t.route.branches = t.pushDown.map (branchOf (heads t.filters)) := by
  have hstart : routeRelations t.relations = t.relations.map (branchOf []) := by
    rw [routeRelations_eq_map]
    exact List.map_congr_left fun p _ => by simp [branchOf]
  rw [route_eq, hstart, foldl_placeBranch _ hkeys, List.append_nil]
  rfl

/-! ## Properties of all levels -/

namespace Everywhere

variable {P : ActionTree → Prop} {t : ActionTree}

theorem addFilters (h : t.Everywhere P) (hadd : ∀ t f, P t → P (addFilter t f)) (filters : List Filter) :
    (t.addFilters filters).Everywhere P := by
  induction filters generalizing t with
  | nil => exact h
  | cons f filters ih => exact ih (.intro (hadd _ f h.here) h.inside)

theorem behind (h : t.Everywhere P) (hnew : ∀ name, P (unselected name)) (head : String) :
    (t.behind head).Everywhere P := by
  unfold ActionTree.behind
  cases hfind : Keyed.find? head t.relations with
  | none => exact .intro (hnew head) fun p hp => nomatch hp
  | some child => exact h.inside _ (Keyed.mem_of_find? hfind)

end Everywhere

/-- After filters are handed down, a level behind a relation is as it was, or has those that go through the relation. -/
theorem mem_pushDown {t : ActionTree} (hkeys : t.KeysDiffer) {label : String} {child : ActionTree} :
    (label, child) ∈ t.pushDown ↔ (label ∈ heads t.filters ∧ child = t.narrowed label) ∨
      (label ∉ heads t.filters ∧ (label, child) ∈ t.relations) := by
  rw [Keyed.mem_iff_find? (nodup_keys_pushDown hkeys), find?_pushDown, Keyed.mem_iff_find? hkeys]
  split
  · rename_i h
    simp only [h, Option.some.injEq, true_and, not_true_eq_false, false_and, or_false]
    exact eq_comm
  · rename_i h
    simp only [h, false_and, not_false_eq_true, true_and, false_or]

/-- Handing filters down keeps what adding filters keeps. -/
theorem Everywhere.pushDown {P : ActionTree → Prop} {t : ActionTree} (h : t.Everywhere P) (hkeys : t.KeysDiffer)
    (hnew : ∀ name, P (unselected name)) (hadd : ∀ t f, P t → P (addFilter t f)) :
    ∀ p ∈ t.pushDown, p.2.Everywhere P := by
  rintro ⟨label, child⟩ hp
  rcases (mem_pushDown hkeys).1 hp with ⟨_, rfl⟩ | ⟨_, hp⟩
  · exact (h.behind hnew label).addFilters hadd _
  · exact h.inside _ hp

theorem keysDiffer_pushDown {t : ActionTree} (h : t.Everywhere KeysDiffer) :
    ∀ p ∈ t.pushDown, p.2.Everywhere KeysDiffer :=
  h.pushDown h.here (fun _ => List.nodup_nil) fun _ _ h => h

theorem sizeOf_route_lt {t : ActionTree} (hkeys : t.KeysDiffer) {p : String × ActionTree} (hp : p ∈ t.pushDown) :
    sizeOf p.2.route < sizeOf t.route := by
  have hbranch : branchOf (heads t.filters) p ∈ t.route.branches := by
    rw [branches_route hkeys]
    exact List.mem_map_of_mem hp
  have hlist := List.sizeOf_lt_of_mem hbranch
  have hlevel : sizeOf p.2.route < sizeOf (branchOf (heads t.filters) p) := by
    simp only [branchOf, Branch.mk.sizeOf_spec]
    omega
  have htree : sizeOf t.route.branches < sizeOf t.route := by
    cases t.route
    simp only [RoutedTree.mk.sizeOf_spec]
    omega
  omega

/-- **Induction from the top.** What holds of a level if it holds of the levels to which it has handed its filters down,
holds of every level. -/
@[elab_as_elim]
theorem pushDown_induction {motive : (t : ActionTree) → t.Everywhere KeysDiffer → Prop}
    (step : ∀ t (ht : t.Everywhere KeysDiffer),
      (∀ p (hp : p ∈ t.pushDown), motive p.2 (keysDiffer_pushDown ht p hp)) → motive t ht)
    (t : ActionTree) (ht : t.Everywhere KeysDiffer) : motive t ht :=
  step t ht fun p hp => pushDown_induction step p.2 (keysDiffer_pushDown ht p hp)
termination_by sizeOf t.route
decreasing_by exact sizeOf_route_lt ht.here hp

end ActionTree

end TreeQuery
