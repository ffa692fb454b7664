import Mathlib.Data.List.Nodup
import TreeQuery.Proofs.Building
import TreeQuery.Proofs.Constraints

/-!
# Well-formed trees

A level is *tidy* if its relations are filed once and under the names of their levels, and if it has no selector and no
filter twice; a tree is *well formed* if all its levels are tidy. Trees come about step by step (`Step`): a tree gives
way to a new one, or a filter or another tree is added at the end of a path of relations. Each step keeps trees well
formed (`Step.wellFormed`), and so does every sequence of them (`wellFormed_of_steps`).

- Merging keeps levels tidy, as it adds selectors and filters only where they are missing, and files each relation under
  the name of its level (`Tidy.merge`). As a level that is added to others need not have a name, grafting asks for one
  (`Tidy.graft`).
- A change at the end of a path keeps trees well formed if it leaves the name of the level there as it is
  (`WellFormed.modifyAt`).
- The tree of a text is well formed, as its levels are built by grafting levels with names (`wellFormed_ofText`).
-/

namespace TreeQuery

open Outcome

theorem nodup_addNew {α : Type} [DecidableEq α] {list : List α} (h : list.Nodup) (entry : α) :
    (addNew list entry).Nodup := by
  unfold addNew
  split
  · exact h
  · rename_i hentry
    refine List.nodup_append.2 ⟨h, List.nodup_singleton entry, fun a ha b hb => ?_⟩
    cases List.mem_singleton.1 hb
    exact fun hab => hentry (hab ▸ ha)

theorem nodup_foldl_addNew {α : Type} [DecidableEq α] {mine : List α} (h : mine.Nodup) (theirs : List α) :
    (theirs.foldl addNew mine).Nodup := by
  induction theirs generalizing mine with
  | nil => exact h
  | cons entry theirs ih => exact ih (nodup_addNew h entry)

/-- Merged selections have no selector twice, if neither of the two has. -/
theorem Selection.nodup_merge {mine theirs : Selection} (hmine : mine.selectors.Nodup)
    (htheirs : theirs.selectors.Nodup) : (mine.merge theirs).selectors.Nodup := by
  cases theirs with
  | unselected => cases mine <;> exact hmine
  | fields theirs =>
    cases mine with
    | unselected => exact htheirs
    | fields mine => exact nodup_foldl_addNew hmine theirs

namespace ActionTree

/-! ## Levels -/

/-- Relations under the names of their levels. -/
def Named (relations : List (String × ActionTree)) : Prop := ∀ p ∈ relations, p.2.name = some p.1

/-- A level whose relations are filed once and under the names of their levels, and that has no selector and no filter
twice. -/
structure Tidy (t : ActionTree) : Prop where
  differ : t.KeysDiffer
  named : Named t.relations
  selectors : t.select.selectors.Nodup
  filters : t.FiltersDiffer

/-- A tree whose levels are all tidy. -/
def WellFormed (t : ActionTree) : Prop := t.Everywhere Tidy

theorem key_of_name {t : ActionTree} {name : String} (h : t.name = some name) : t.key = name := by
  rw [key, h]
  rfl

theorem filtersDiffer_addFilters {t : ActionTree} (h : t.FiltersDiffer) (filters : List Filter) :
    (t.addFilters filters).FiltersDiffer := by
  induction filters generalizing t with
  | nil => exact h
  | cons f filters ih => exact ih (filtersDiffer_addFilter h f)

/-! ## Merging -/

/-- Filing a level with a name keeps relations under the names of their levels. -/
theorem Named.alter {mine : List (String × ActionTree)} (h : Named mine) {child : ActionTree}
    (hchild : child.name = some child.key) : Named (Keyed.alter child.key (mergeInto child) mine) := by
  intro p hp
  rcases Keyed.mem_alter hp with hp | rfl
  · exact h p hp
  · cases hfound : Keyed.find? child.key mine with
    | none => exact hchild
    | some existing =>
      have hname : existing.name = some child.key := h _ (Keyed.mem_of_find? hfound)
      rw [mergeInto, merge_eq]
      exact hname

theorem Named.mergeRelations {mine theirs : List (String × ActionTree)} (hmine : Named mine) (htheirs : Named theirs) :
    Named (ActionTree.mergeRelations mine theirs) := by
  induction theirs generalizing mine with
  | nil =>
    rw [ActionTree.mergeRelations]
    exact hmine
  | cons p rest ih =>
    obtain ⟨label, child⟩ := p
    obtain ⟨hchild, hrest⟩ := List.forall_mem_cons.1 htheirs
    have hname : child.name = some child.key := by rw [key_of_name hchild, hchild]
    rw [mergeRelations_step]
    exact ih (hmine.alter hname) hrest

/-- Merging keeps levels tidy. -/
theorem Tidy.merge {mine theirs : ActionTree} (hmine : mine.Tidy) (htheirs : theirs.Tidy) :
    (mine.merge theirs).Tidy where
  differ := keysDiffer_merge hmine.differ theirs
  named := by
    rw [merge_eq]
    exact hmine.named.mergeRelations htheirs.named
  selectors := by
    rw [merge_eq]
    exact Selection.nodup_merge hmine.selectors htheirs.selectors
  filters := by
    have h : (mine.addFilters theirs.filters).FiltersDiffer := filtersDiffer_addFilters hmine.filters theirs.filters
    rw [addFilters_eq] at h
    rw [merge_eq]
    exact h

/-- A tidy level stays tidy when a level with a name is filed in it. -/
theorem Tidy.graft {t child : ActionTree} (ht : t.Tidy) (hname : child.name.isSome = true) :
    (t.graft child).Tidy := by
  obtain ⟨name, hname⟩ := Option.isSome_iff_exists.1 hname
  have hnamed : Named [(child.key, child)] := fun p hp => by
    cases List.mem_singleton.1 hp
    rw [key_of_name hname, hname]
  have hrelations : (t.graft child).relations = mergeRelations t.relations [(child.key, child)] := by rw [graft_eq]
  refine ⟨Keyed.nodup_keys_alter ht.differ, ?_, ht.selectors, ht.filters⟩
  rw [hrelations]
  exact ht.named.mergeRelations hnamed

/-- A well-formed tree stays well formed when a well-formed one with a name is filed in it. -/
theorem WellFormed.graft {t child : ActionTree} (ht : t.WellFormed) (hchild : child.WellFormed)
    (hname : child.name.isSome = true) : (t.graft child).WellFormed :=
  Everywhere.graft (fun _ _ hmine htheirs => hmine.merge htheirs) (ht.here.graft hname) ht hchild

theorem Tidy.addFilter {t : ActionTree} (ht : t.Tidy) (f : Filter) : (t.addFilter f).Tidy :=
  ⟨ht.differ, ht.named, ht.selectors, filtersDiffer_addFilter ht.filters f⟩

theorem WellFormed.addFilter {t : ActionTree} (ht : t.WellFormed) (f : Filter) : (t.addFilter f).WellFormed :=
  .intro (ht.here.addFilter f) ht.inside

/-! ## Changes behind relations -/

theorem wellFormed_empty (name : Option String) : { empty with name }.WellFormed :=
  .intro ⟨List.nodup_nil, nofun, List.nodup_nil, .nil⟩ nofun

theorem wellFormed_unselected (name : String) : (unselected name).WellFormed :=
  .intro ⟨List.nodup_nil, nofun, List.nodup_nil, .nil⟩ nofun

/-- A change of levels that keeps their names and keeps trees well formed may be made behind any relations. -/
theorem WellFormed.modifyAt {f : ActionTree → ActionTree} (hname : ∀ t, (f t).name = t.name)
    (hf : ∀ {t : ActionTree}, t.WellFormed → (f t).WellFormed) (path : List String) {t : ActionTree}
    (ht : t.WellFormed) : (ActionTree.modifyAt f path t).WellFormed := by
  have hkeep : ∀ (path : List String) (t : ActionTree), (ActionTree.modifyAt f path t).name = t.name := by
    intro path t
    cases path with
    | nil => exact hname t
    | cons head path => rfl
  induction path generalizing t with
  | nil => exact hf ht
  | cons head path ih =>
    -- what is found behind the relation, or made there, is well formed and has the name of the relation
    have hfound : ((Keyed.find? head t.relations).getD (unselected head)).WellFormed ∧
        ((Keyed.find? head t.relations).getD (unselected head)).name = some head := by
      cases hfind : Keyed.find? head t.relations with
      | none => exact ⟨wellFormed_unselected head, rfl⟩
      | some child =>
        have hmem := Keyed.mem_of_find? hfind
        exact ⟨ht.inside _ hmem, ht.here.named _ hmem⟩
    refine .intro ⟨Keyed.nodup_keys_alter ht.here.differ, fun p hp => ?_, ht.here.selectors, ht.here.filters⟩
      fun p hp => ?_
    · rcases Keyed.mem_alter hp with hp | rfl
      · exact ht.here.named p hp
      · exact (hkeep path _).trans hfound.2
    · rcases Keyed.mem_alter hp with hp | rfl
      · exact ht.inside p hp
      · exact ih hfound.1

/-! ## Trees of texts -/

theorem WellFormed.modifyAll {modifiers : List Modifier} {t t' : ActionTree} (h : t.modifyAll modifiers = .ok t')
    (ht : t.WellFormed) : t'.WellFormed := by
  induction modifiers generalizing t with
  | nil => cases h; exact ht
  | cons m rest ih =>
    obtain ⟨u, hu, h⟩ := bind_eq_ok.1 (show (t.modify m >>= fun t => t.modifyAll rest) = .ok t' from h)
    refine ih h ?_
    cases m with
    | filter path op value =>
      rw [modify] at hu
      split at hu
      · cases hu; exact ht.addFilter _
      · cases hu
    | order _ _ | limit _ | offset _ =>
      cases hu
      exact .intro ⟨ht.here.differ, ht.here.named, ht.here.selectors, ht.here.filters⟩ ht.inside

theorem WellFormed.addSelector {t : ActionTree} (ht : t.WellFormed) (s : Selector) : (t.addSelector s).WellFormed :=
  .intro ⟨ht.here.differ, ht.here.named, nodup_addNew ht.here.selectors s, ht.here.filters⟩ ht.inside

mutual

/-- The tree of every level of syntax is well formed. -/
theorem wellFormed_ofLevel : ∀ {tree : SyntaxTree} {name : Option String} {t : ActionTree},
    ofLevel name tree = .ok t → t.WellFormed
  | ⟨_, _⟩, _, _, h => by
    rw [ofLevel] at h
    obtain ⟨t, hfields, h⟩ := bind_eq_ok.1 h
    exact (wellFormed_addFields hfields (wellFormed_empty _)).modifyAll h

theorem wellFormed_addFields : ∀ {fields : List (FieldEntry SyntaxTree)} {t t' : ActionTree},
    t.addFields fields = .ok t' → t.WellFormed → t'.WellFormed
  | [], _, _, h, ht => by cases h; exact ht
  | .name _ :: rest, t, _, h, ht | .excluded _ :: rest, t, _, h, ht | .wildcard :: rest, t, _, h, ht => by
    rw [addFields] at h
    exact wellFormed_addFields h (ht.addSelector _)
  | .relation label _ :: rest, t, _, h, ht => by
    rw [addFields] at h
    obtain ⟨child, hchild, h⟩ := bind_eq_ok.1 h
    have hname : child.name.isSome = true := by rw [name_ofLevel hchild]; rfl
    exact wellFormed_addFields h (ht.graft (wellFormed_ofLevel hchild) hname)

end

theorem wellFormed_ofText {text : String} {t : ActionTree} (h : ofText text = .ok t) : t.WellFormed := by
  obtain ⟨tree, _, h⟩ := bind_eq_ok.1 h
  exact wellFormed_ofLevel h

/-! ## Sequences of steps -/

/-- One step in the history of a tree: it gives way to a level without a selection or to the tree of a text, or at the
end of a path of relations, where levels that are missing are made, a filter is added or a well-formed tree with a name
is filed. -/
inductive Step : ActionTree → ActionTree → Prop
  | unselected (t : ActionTree) (name : String) : Step t (.unselected name)
  | ofText (t : ActionTree) {text : String} {new : ActionTree} (h : ActionTree.ofText text = .ok new) : Step t new
  | addFilter (t : ActionTree) (path : List String) (f : Filter) :
    Step t (t.modifyAt (fun level => level.addFilter f) path)
  | graft (t : ActionTree) (path : List String) {child : ActionTree} (hchild : child.WellFormed)
    (hname : child.name.isSome = true) : Step t (t.modifyAt (fun level => level.graft child) path)

/-- A step keeps trees well formed. -/
theorem Step.wellFormed {t t' : ActionTree} (h : Step t t') (ht : t.WellFormed) : t'.WellFormed := by
  cases h with
  | unselected name => exact wellFormed_unselected name
  | ofText hnew => exact wellFormed_ofText hnew
  | addFilter path f =>
    have hkeep : ∀ level : ActionTree, (level.addFilter f).name = level.name := fun _ => rfl
    exact .modifyAt hkeep (fun hlevel => hlevel.addFilter f) path ht
  | @graft path child hchild hname =>
    have hkeep : ∀ level : ActionTree, (level.graft child).name = level.name := fun _ => rfl
    exact .modifyAt hkeep (fun hlevel => hlevel.graft hchild hname) path ht

/-- What starts well formed is well formed after each of any number of steps. -/
theorem wellFormed_of_isChain {start : ActionTree} (hstart : start.WellFormed) {trees : List ActionTree}
    (h : (start :: trees).IsChain Step) : ∀ t ∈ trees, t.WellFormed := by
  induction trees generalizing start with
  | nil => nofun
  | cons next trees ih =>
    obtain ⟨hstep, hrest⟩ := List.isChain_cons_cons.1 h
    have hnext : next.WellFormed := hstep.wellFormed hstart
    exact List.forall_mem_cons.2 ⟨hnext, ih hnext hrest⟩

/-- **Trees are well formed after every step.** In every sequence of steps from the empty tree, each tree is well
formed. -/
theorem wellFormed_of_steps {trees : List ActionTree} (h : (empty :: trees).IsChain Step) :
    ∀ t ∈ trees, t.WellFormed := wellFormed_of_isChain (wellFormed_empty none) h

/-- Steps by their identity, only those of certain tasks. -/
def stepsOfTasks : ActionTree :=
  { unselected "steps" with
    select := .fields [.field "id", .field "label"]
    filters := [⟨⟨[], "id"⟩, .compare .greater, .int 1⟩]
    relations := [("task", { unselected "task" with filters := [⟨⟨[], "label"⟩, .like, .string "a%"⟩] })] }

/-- Tasks and their steps as they are read from a text, with a filter behind two relations, and with the steps asked for
a second time. -/
def taskHistory : List ActionTree :=
  let read := { empty with
    select := .fields [.field "id"]
    relations := [("steps", { unselected "steps" with
      select := .fields [.field "label"]
      filters := [⟨⟨[], "id"⟩, .compare .greater, .int 1⟩] })] }
  let filtered := read.modifyAt (fun level => level.addFilter ⟨⟨[], "id"⟩, .compare .less, .int 9⟩) ["steps", "task"]
  [read, filtered, filtered.modifyAt (fun level => level.graft stepsOfTasks) []]

theorem wellFormed_of_steps_tasks : (empty :: taskHistory).IsChain Step ∧ (∀ t ∈ taskHistory, t.WellFormed) ∧
    taskHistory.getLast? = some { empty with
      select := .fields [.field "id"]
      relations := [("steps", { unselected "steps" with
        select := .fields [.field "label", .field "id"]
        filters := [⟨⟨[], "id"⟩, .compare .greater, .int 1⟩]
        relations := [("task", { unselected "task" with
          filters := [⟨⟨[], "id"⟩, .compare .less, .int 9⟩, ⟨⟨[], "label"⟩, .like, .string "a%"⟩] })] })] } := by
  have hsteps : stepsOfTasks.WellFormed := by
    have htask : ((unselected "task").addFilter ⟨⟨[], "label"⟩, .like, .string "a%"⟩).WellFormed :=
      (wellFormed_unselected "task").addFilter _
    refine .intro ⟨List.nodup_singleton _, fun p hp => ?_, by decide, List.pairwise_singleton _ _⟩ fun p hp => ?_
    · cases List.mem_singleton.1 hp
      rfl
    · cases List.mem_singleton.1 hp
      exact htask
  have hread : ofText "q=(id, steps(label).filter(id>1))" = .ok { empty with
      select := .fields [.field "id"]
      relations := [("steps", { unselected "steps" with
        select := .fields [.field "label"]
        filters := [⟨⟨[], "id"⟩, .compare .greater, .int 1⟩] })] } :=
    ofText_eq_ok.2 ⟨⟨[.name "id", .relation "steps" ⟨[.name "label"], [.filter ["id"] (.compare .greater) (.int 1)]⟩],
      []⟩, rfl, rfl⟩
  have hchain : (empty :: taskHistory).IsChain Step :=
    .cons_cons (.ofText _ hread) (.cons_cons (.addFilter _ _ _) (.cons_cons (.graft _ _ hsteps rfl) (.singleton _)))
  exact ⟨hchain, wellFormed_of_steps hchain, rfl⟩

end ActionTree

end TreeQuery
