import TreeQuery.Proofs.WellFormed

/-!
# Levels of one name as an idempotent monoid

The well-formed trees of one name, without NaNs, form an idempotent monoid under merging, whose unit is the level that
no one selected; and filing them in a tree, one after the other, is an action of this monoid (`graft_monoid`). So it
does not matter how often a relation is asked for in the same words, nor in which grouping. All laws are equations
between trees, so the order of selectors, filters and relations is the same on both sides, at every level.

- A tree changes nothing when it is merged into itself (`merge_self`): each selector is there, and each filter, as a
  filter without NaNs is the same as itself (`Value.same_self`).
- The level that no one selected takes everything as it comes (`unselected_merge`): nothing is there twice.
- Grafting two levels is grafting the merged one (`graft_graft`), which carries the laws over to every tree.
-/

namespace TreeQuery

/-! ## Values without NaNs -/

mutual

/-- Whether a value is a NaN, or a list with one somewhere. -/
def Value.hasNaN : Value → Bool
  | .float x => x.isNaN
  | .list items => anyNaN items
  | .int _ | .date _ | .string _ => false

/-- Whether a NaN is somewhere in some values. -/
def anyNaN : List Value → Bool
  | [] => false
  | v :: rest => v.hasNaN || anyNaN rest

end

mutual

/-- A value is the same as itself unless it holds a NaN. -/
theorem Value.same_self : ∀ v : Value, v.same v = !v.hasNaN
  | .int _ | .date _ | .string _ => by simp [Value.same, Value.hasNaN]
  | .float x => by rw [Value.same, Value.hasNaN, Binary64.same_self]
  | .list items => by rw [Value.same, Value.hasNaN, sameItems_self items]

theorem sameItems_self : ∀ items : List Value, Value.sameItems items items = !anyNaN items
  | [] => rfl
  | v :: rest => by rw [Value.sameItems, anyNaN, Value.same_self v, sameItems_self rest, Bool.not_or]

end

theorem Filter.same_self {f : Filter} (h : f.value.hasNaN = false) : f.same f = true := by
  simp only [same, Value.same_self, h, beq_self_eq_true, Bool.not_false, Bool.and_self]

/-! ## Lists that grow by nothing, and from nothing -/

section Growing

variable {α : Type} {counts : α → α → Bool}

/-- What counts as being there is not added. -/
theorem foldl_addUnless_of_any {list entries : List α} (h : ∀ x ∈ entries, list.any (counts x) = true) :
    entries.foldl (addUnless counts) list = list := by
  induction entries with
  | nil => rfl
  | cons x entries ih =>
    obtain ⟨hx, hentries⟩ := List.forall_mem_cons.1 h
    rw [List.foldl_cons, addUnless, if_pos hx, ih hentries]

/-- Entries none of which counts as an earlier one are added as they are. -/
theorem foldl_addUnless_of_pairwise {list entries : List α}
    (h : (list ++ entries).Pairwise fun x y => counts y x = false) :
    entries.foldl (addUnless counts) list = list ++ entries := by
  induction entries generalizing list with
  | nil => rw [List.foldl_nil, List.append_nil]
  | cons x entries ih =>
    have hnew : ¬list.any (counts x) = true := by
      rw [List.any_eq_true]
      rintro ⟨y, hy, hxy⟩
      have hapart : counts x y = false := (List.pairwise_append.1 h).2.2 y hy x List.mem_cons_self
      rw [hxy] at hapart
      cases hapart
    rw [List.append_cons] at h
    rw [List.foldl_cons, addUnless, if_neg hnew, ih h, ← List.append_cons]

end Growing

theorem Selection.merge_self (s : Selection) : s.merge s = s := by
  cases s with
  | unselected => rfl
  | fields selectors =>
    have h : selectors.foldl addNew selectors = selectors := by
      rw [← addUnless_eq_addNew]
      exact foldl_addUnless_of_any fun x hx => List.any_eq_true.2 ⟨x, hx, decide_eq_true rfl⟩
    exact congrArg Selection.fields h

namespace ActionTree

variable {name : String} {t a b c : ActionTree}

/-! ## Merging a tree into itself -/

/-- A level whose filters hold no NaN. -/
def NaNFree (t : ActionTree) : Prop := ∀ f ∈ t.filters, f.value.hasNaN = false

theorem mergeRelations_self {relations : List (String × ActionTree)} (h : Filed relations)
    (hself : ∀ p ∈ relations, p.2.merge p.2 = p.2) : mergeRelations relations relations = relations := by
  induction relations with
  | nil => rw [mergeRelations]
  | cons p rest ih =>
    obtain ⟨label, level⟩ := p
    obtain ⟨hlevel, hrest⟩ := List.forall_mem_cons.1 hself
    have hlabel : label ∉ Keyed.keys rest := (List.nodup_cons.1 h.differ).1
    rw [mergeRelations_cons_left h, Keyed.find?, if_pos rfl, Option.elim_some, hlevel, Keyed.erase_cons_self,
      Keyed.erase_of_not_mem hlabel, ih h.tail hrest]

/-- **Merging a tree into itself changes nothing.** -/
theorem merge_self (ht : t.Everywhere WellFiled) (hnan : t.Everywhere NaNFree) : t.merge t = t := by
  induction ht with
  | @intro t hfiled _ ih =>
    have hfilters : t.filters.foldl TreeQuery.addFilter t.filters = t.filters := by
      rw [← addUnless_eq_addFilter]
      exact foldl_addUnless_of_any fun f hf => List.any_eq_true.2 ⟨f, hf, Filter.same_self (hnan.here f hf)⟩
    have hrelations : mergeRelations t.relations t.relations = t.relations :=
      mergeRelations_self hfiled fun p hp => ih p hp (hnan.inside p hp)
    rw [merge_eq, Selection.merge_self, hfilters, hrelations, Option.or_self, Option.or_self, Option.or_self]
    cases t
    rfl

/-! ## Levels that no one selected -/

theorem merge_unselected (t : ActionTree) (name : String) : t.merge (unselected name) = t := by
  have hselect : t.select.merge .unselected = t.select := by cases t.select <;> rfl
  rw [merge_eq]
  simp only [unselected, empty, hselect, mergeRelations, List.foldl_nil, Option.none_or]
  cases t
  rfl

theorem Tidy.wellFiled (ht : t.Tidy) : t.WellFiled := ⟨ht.differ, fun p hp => key_of_name (ht.named p hp)⟩

/-- A tidy level is what it makes of one that no one selected. -/
theorem unselected_merge (hname : t.name = some name) (ht : t.Tidy) : (unselected name).merge t = t := by
  have hfilters : t.filters.foldl TreeQuery.addFilter [] = t.filters := by
    have hdiffer : ([] ++ t.filters).Pairwise fun f g : Filter => g.same f = false :=
      ht.filters.imp fun {f g} h => (Filter.same_comm g f).trans h
    rw [← addUnless_eq_addFilter]
    exact foldl_addUnless_of_pairwise hdiffer
  have hselect : Selection.unselected.merge t.select = t.select := by cases t.select <;> rfl
  rw [merge_eq]
  simp only [unselected, empty, hselect, hfilters, mergeRelations_nil_left ht.wellFiled, Option.or_none, ← hname]
  cases t
  rfl

/-! ## The monoid -/

/-- A well-formed tree with a name, and without NaNs. -/
structure Mergeable (name : String) (t : ActionTree) : Prop where
  name_eq : t.name = some name
  wellFormed : t.WellFormed
  nanFree : t.Everywhere NaNFree

theorem Mergeable.wellFiled (ht : t.Mergeable name) : t.Everywhere WellFiled :=
  ht.wellFormed.mono fun _ h => h.wellFiled

theorem Mergeable.key_eq (ht : t.Mergeable name) : t.key = name := key_of_name ht.name_eq

/-- A tidy level is a tree to merge if those are that its relations lead to. -/
theorem Mergeable.intro (hname : t.name = some name) (ht : t.Tidy) (hnan : t.NaNFree)
    (hinside : ∀ p ∈ t.relations, p.2.Mergeable p.1) : t.Mergeable name where
  name_eq := hname
  wellFormed := .intro ht fun p hp => (hinside p hp).wellFormed
  nanFree := .intro hnan fun p hp => (hinside p hp).nanFree

theorem mergeable_unselected (name : String) : (unselected name).Mergeable name :=
  ⟨rfl, wellFormed_unselected name, .intro nofun nofun⟩

theorem NaNFree.merge (ha : a.NaNFree) (hb : b.NaNFree) : (a.merge b).NaNFree := by
  intro f hf
  rw [merge_eq] at hf
  rcases mem_or_mem_of_mem_addAll hf with hf | hf
  · exact ha f hf
  · exact hb f hf

/-- Merging stays among the well-formed trees of a name. -/
theorem Mergeable.merge (ha : a.Mergeable name) (hb : b.Mergeable name) : (a.merge b).Mergeable name where
  name_eq := by
    rw [merge_eq]
    exact ha.name_eq
  wellFormed := .merge (fun _ _ hmine htheirs => hmine.merge htheirs) ha.wellFormed hb.wellFormed
  nanFree := .merge (fun _ _ hmine htheirs => hmine.merge htheirs) ha.nanFree hb.nanFree

/-- **Filing levels of one name is an action of an idempotent monoid.** Well-formed trees of one name, without NaNs, are
closed under merging, and what is filed after two of them is the merged one. Whatever the tree is in which they are
filed, a level may be filed twice, two levels may be filed as one, and the level that no one selected may be filed
before another one or after it. -/
theorem graft_monoid (ha : a.Mergeable name) (hb : b.Mergeable name) (hc : c.Mergeable name) :
    (unselected name).Mergeable name ∧ (b.merge c).Mergeable name ∧
      Keyed.find? name ((empty.graft b).graft c).relations = some (b.merge c) ∧
      ∀ t : ActionTree, (t.graft a).graft a = t.graft a ∧
        ((t.graft a).graft b).graft c = (t.graft a).graft (b.merge c) ∧
        (t.graft (unselected name)).graft a = t.graft a ∧ (t.graft a).graft (unselected name) = t.graft a := by
  have hunit := mergeable_unselected name
  have htwo {x y : ActionTree} (hx : x.Mergeable name) (hy : y.Mergeable name) (t : ActionTree) :
      (t.graft x).graft y = t.graft (x.merge y) :=
    graft_graft t hx.wellFiled hy.wellFiled (hy.key_eq.trans hx.key_eq.symm)
  refine ⟨hunit, hb.merge hc, ?_, fun t => ⟨?_, htwo hb hc (t.graft a), ?_, ?_⟩⟩
  · have hfiled := find?_graft_self empty (b.merge c)
    rw [(hb.merge hc).key_eq] at hfiled
    rw [htwo hb hc, hfiled]
    rfl
  · rw [htwo ha ha, merge_self ha.wellFiled ha.nanFree]
  · rw [htwo hunit ha, unselected_merge ha.name_eq ha.wellFormed.here]
  · rw [htwo ha hunit, merge_unselected]

/-- Steps that are late, of certain tasks; nothing of them is shown. -/
def lateStepsOfTasks : ActionTree :=
  { unselected "steps" with
    filters := [⟨⟨[], "id"⟩, .compare .less, .int 9⟩, ⟨⟨[], "id"⟩, .compare .greater, .int 1⟩]
    relations := [("task", { unselected "task" with filters := [⟨⟨[], "label"⟩, .like, .string "a%"⟩] })] }

/-- Two steps by their labels, with all their peers. -/
def twoSteps : ActionTree :=
  { unselected "steps" with
    select := .fields [.field "label", .wildcard]
    limit := some 2
    relations := [("peers", { unselected "peers" with select := .fields [.wildcard] })] }

theorem graft_monoid_steps : stepsOfTasks.Mergeable "steps" ∧ lateStepsOfTasks.Mergeable "steps" ∧
    twoSteps.Mergeable "steps" ∧
    (let tasks := empty.graft { twoSteps with offset := some 4 }
    (tasks.graft stepsOfTasks).graft stepsOfTasks = tasks.graft stepsOfTasks ∧
      ((tasks.graft stepsOfTasks).graft lateStepsOfTasks).graft twoSteps =
        (tasks.graft stepsOfTasks).graft (lateStepsOfTasks.merge twoSteps) ∧
      (tasks.graft (unselected "steps")).graft stepsOfTasks = tasks.graft stepsOfTasks ∧
      (tasks.graft stepsOfTasks).graft (unselected "steps") = tasks.graft stepsOfTasks) ∧
    (lateStepsOfTasks.merge twoSteps).select = .fields [.field "label", .wildcard] ∧
    Keyed.keys (lateStepsOfTasks.merge twoSteps).relations = ["task", "peers"] := by
  have htask : ({ unselected "task" with filters := [⟨⟨[], "label"⟩, .like, .string "a%"⟩] }).Mergeable "task" :=
    .intro rfl ((wellFormed_unselected "task").addFilter ⟨⟨[], "label"⟩, .like, .string "a%"⟩).here
      (List.forall_mem_singleton.2 rfl) nofun
  have hpeers : ({ unselected "peers" with select := .fields [.wildcard] }).Mergeable "peers" :=
    .intro rfl ⟨List.nodup_nil, nofun, List.nodup_singleton _, .nil⟩ nofun nofun
  have hsteps : stepsOfTasks.Mergeable "steps" :=
    .intro rfl ⟨List.nodup_singleton _, List.forall_mem_singleton.2 rfl, by decide, List.pairwise_singleton _ _⟩
      (List.forall_mem_singleton.2 rfl) (List.forall_mem_singleton.2 htask)
  have hlate : lateStepsOfTasks.Mergeable "steps" :=
    .intro rfl ⟨List.nodup_singleton _, List.forall_mem_singleton.2 rfl, List.nodup_nil, List.pairwise_pair.2 rfl⟩
      (List.forall_mem_cons.2 ⟨rfl, List.forall_mem_singleton.2 rfl⟩) (List.forall_mem_singleton.2 htask)
  have htwo : twoSteps.Mergeable "steps" :=
    .intro rfl ⟨List.nodup_singleton _, List.forall_mem_singleton.2 rfl, by decide, .nil⟩ nofun
      (List.forall_mem_singleton.2 hpeers)
  obtain ⟨_, _, _, hlaws⟩ := graft_monoid hsteps hlate htwo
  exact ⟨hsteps, hlate, htwo, hlaws _, rfl, rfl⟩

end ActionTree

end TreeQuery
