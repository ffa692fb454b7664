import Mathlib.Data.List.Basic
import TreeQuery.Proofs.Documents
import TreeQuery.Proofs.Json.RoundTrip
import TreeQuery.Proofs.Merging

/-!
# Relations keep their aliases

Where a level is merged into another one, every path of relations should lead to the levels that it led to in the two,
merged (`KeepsAliases`). It does in all trees that the level may be grafted onto iff the level files its relations, and
the levels behind it theirs, under the names that their levels carry (`graftKeepsAliases_iff`): a merge files relations
by name, and drops the aliases that they had. What is read from a text may have any names
(`not_graftKeepsAliases_misfiled`).

- Levels that are filed by name are merged path by path (`levelAt?_merge`).
- A relation with another name than its alias shows when its level is merged into one without relations
  (`filedByName_of_keepsAliases`), and one further behind when its path is there already (`keepsAliases_inside`).
-/

namespace TreeQuery.ActionTree

/-- Whether the relations of a level are filed under the names of their levels. -/
def FiledByName (t : ActionTree) : Prop := ∀ p ∈ t.relations, p.2.key = p.1

/-- The aliases of the relations at the end of a path. -/
def aliasesAt (t : ActionTree) (path : List String) : List String :=
  (t.levelAt? path).elim [] fun level => Keyed.keys level.relations

/-- Whether all relations of two levels are in a third one under their aliases: on every path it has the aliases of
both, and the level there is that of the one or the other, or both merged. -/
structure KeepsAliases (mine theirs merged : ActionTree) : Prop where
  aliases : ∀ path label,
    label ∈ merged.aliasesAt path ↔ label ∈ mine.aliasesAt path ∨ label ∈ theirs.aliasesAt path
  levels : ∀ path, merged.levelAt? path = Option.merge merge (mine.levelAt? path) (theirs.levelAt? path)

variable {t mine theirs merged child : ActionTree} {path : List String} {label : String}

/-! ## Paths of merged levels -/

theorem isSome_find?_iff {list : List (String × ActionTree)} :
    (Keyed.find? label list).isSome = true ↔ label ∈ Keyed.keys list := by
  rw [← Option.ne_none_iff_isSome, Ne, Keyed.find?_eq_none, Classical.not_not]

theorem mem_aliasesAt : label ∈ t.aliasesAt path ↔ (t.levelAt? (path ++ [label])).isSome = true := by
  rw [levelAt?_append, aliasesAt]
  cases t.levelAt? path with
  | none => exact iff_of_false List.not_mem_nil Bool.false_ne_true
  | some level =>
    rw [Option.bind_some, levelAt?_singleton, isSome_find?_iff]
    rfl

theorem keepsAliases_of_levels
    (h : ∀ path, merged.levelAt? path = Option.merge merge (mine.levelAt? path) (theirs.levelAt? path)) :
    KeepsAliases mine theirs merged := by
  refine ⟨fun path label => ?_, h⟩
  rw [mem_aliasesAt, mem_aliasesAt, mem_aliasesAt, h]
  cases mine.levelAt? (path ++ [label]) <;> cases theirs.levelAt? (path ++ [label]) <;> simp

theorem wellFiled_of_filedByName (hkeys : t.Everywhere KeysDiffer) (hnamed : t.Everywhere FiledByName) :
    t.Everywhere WellFiled := by
  induction hkeys with
  | intro hkeys _ ih => exact .intro ⟨hkeys, hnamed.here⟩ fun p hp => ih p hp (hnamed.inside p hp)

/-- Levels that are filed by name are merged path by path. -/
theorem levelAt?_merge (htheirs : theirs.Everywhere WellFiled) (mine : ActionTree) (path : List String) :
    (mine.merge theirs).levelAt? path = Option.merge merge (mine.levelAt? path) (theirs.levelAt? path) := by
  induction path generalizing mine theirs with
  | nil => rfl
  | cons label path ih =>
    rw [levelAt?, levelAt?, levelAt?, merge_eq, find?_mergeRelations htheirs.here]
    cases hmine : Keyed.find? label mine.relations with
    | none => rw [Option.merge_none_left, Option.bind_none, Option.merge_none_left]
    | some level =>
      cases hlevel : Keyed.find? label theirs.relations with
      | none => rw [Option.merge_none_right, Option.bind_none, Option.merge_none_right]
      | some level' => exact ih (htheirs.inside _ (Keyed.mem_of_find? hlevel)) level

/-! ## Levels with one relation -/

/-- A level with one relation. -/
def behindOne (label : String) (level : ActionTree) : ActionTree := { empty with relations := [(label, level)] }

theorem levelAt?_behindOne (label : String) (level : ActionTree) (path : List String) :
    (behindOne label level).levelAt? (label :: path) = level.levelAt? path := by
  rw [levelAt?, behindOne, Keyed.find?, if_pos rfl, Option.bind_some]

theorem everywhere_keysDiffer_single {t level : ActionTree} (h : t.relations = [(label, level)])
    (hlevel : level.Everywhere KeysDiffer) : t.Everywhere KeysDiffer := by
  have hkeys : t.KeysDiffer := by
    rw [KeysDiffer, h]
    exact List.pairwise_singleton _ _
  refine .intro hkeys fun p hp => ?_
  rw [h] at hp
  cases List.mem_singleton.1 hp
  exact hlevel

/-! ## Levels that are not filed by name -/

/-- A level that keeps its aliases when it is merged into one without relations has filed its relations by name. -/
theorem filedByName_of_keepsAliases (hkeys : theirs.KeysDiffer) (h : KeepsAliases empty theirs (empty.merge theirs)) :
    theirs.FiledByName := by
  rintro ⟨label, level⟩ hp
  have hfind : Keyed.find? label (mergeRelations [] theirs.relations) = some level := by
    have hlevel := h.levels [label]
    rw [levelAt?_singleton, levelAt?_singleton, levelAt?_singleton, (Keyed.mem_iff_find? hkeys).1 hp,
      merge_eq] at hlevel
    exact hlevel
  exact (filed_nil.mergeRelations theirs.relations).named _ (Keyed.mem_of_find? hfind)

/-- What keeps its aliases in every merge, does so behind each of its relations. -/
theorem keepsAliases_inside (hkeys : theirs.KeysDiffer) {level : ActionTree} (hp : (label, level) ∈ theirs.relations)
    (h : KeepsAliases (behindOne label mine) theirs ((behindOne label mine).merge theirs)) :
    KeepsAliases mine level (mine.merge level) := by
  have htheirs (path : List String) : theirs.levelAt? (label :: path) = level.levelAt? path := by
    rw [levelAt?, (Keyed.mem_iff_find? hkeys).1 hp, Option.bind_some]
  have hpath (path : List String) : ((behindOne label mine).merge theirs).levelAt? (label :: path) =
      Option.merge merge (mine.levelAt? path) (level.levelAt? path) := by
    rw [h.levels, levelAt?_behindOne, htheirs]
  have hfind : Keyed.find? label ((behindOne label mine).merge theirs).relations = some (mine.merge level) := by
    rw [← levelAt?_singleton]
    exact hpath []
  refine keepsAliases_of_levels fun path => ?_
  rw [← hpath, levelAt?, hfind, Option.bind_some]

/-- What keeps its aliases in every merge is filed by name everywhere. -/
theorem filedByName_everywhere (hkeys : theirs.Everywhere KeysDiffer)
    (h : ∀ mine : ActionTree, mine.Everywhere KeysDiffer → KeepsAliases mine theirs (mine.merge theirs)) :
    theirs.Everywhere FiledByName := by
  induction hkeys with
  | intro hkeys _ ih =>
    have hempty : empty.Everywhere KeysDiffer := .intro List.nodup_nil nofun
    refine .intro (filedByName_of_keepsAliases hkeys (h empty hempty)) fun p hp => ih p hp fun mine hmine => ?_
    exact keepsAliases_inside hkeys hp (h _ (everywhere_keysDiffer_single rfl hmine))

/-- Whether grafting a level onto a tree that has one of its name keeps the aliases of both: the level under the name is
their merge, with all relations under their aliases, and the other relations of the tree stay as they are. -/
structure GraftKeepsAliases (t child existing : ActionTree) : Prop where
  merged : ∃ merged, Keyed.find? child.key (t.graft child).relations = some merged ∧ KeepsAliases existing child merged
  others : ∀ label, label ≠ child.key → Keyed.find? label (t.graft child).relations = Keyed.find? label t.relations

/-- **Merging files by name.** A level keeps the aliases of its relations, and of those behind them, in every tree that
has a level of its name already, iff it files them under the names of their levels, and so do the levels behind it. -/
theorem graftKeepsAliases_iff (hkeys : child.Everywhere KeysDiffer) :
    (∀ t existing : ActionTree, t.Everywhere KeysDiffer → Keyed.find? child.key t.relations = some existing →
      GraftKeepsAliases t child existing) ↔ child.Everywhere FiledByName := by
  constructor
  · refine fun h => filedByName_everywhere hkeys fun mine hmine => ?_
    have hfind : Keyed.find? child.key (behindOne child.key mine).relations = some mine := if_pos rfl
    obtain ⟨merged, hmerged, hkeeps⟩ := (h _ _ (everywhere_keysDiffer_single rfl hmine) hfind).merged
    rw [find?_graft_self, hfind] at hmerged
    cases hmerged
    exact hkeeps
  · intro hnamed t existing _ hfind
    have hfiled : child.Everywhere WellFiled := wellFiled_of_filedByName hkeys hnamed
    refine ⟨⟨existing.merge child, ?_, keepsAliases_of_levels (levelAt?_merge hfiled existing)⟩,
      fun label hlabel => find?_graft_of_ne hlabel t⟩
    rw [find?_graft_self, hfind]
    rfl

/-- The steps of tasks, each with its peers. -/
def stepsWithPeers : ActionTree :=
  { empty with name := some "steps", relations := [("peers", { empty with name := some "peers" })] }

/-- The steps of tasks, each with its task and that with its steps. -/
def stepsOfTask : ActionTree :=
  { empty with
    name := some "steps"
    relations := [("task", { empty with name := some "task", relations := [("steps", stepsWithPeers)] })] }

theorem graftKeepsAliases_iff_steps : stepsOfTask.Everywhere KeysDiffer ∧ stepsOfTask.Everywhere FiledByName ∧
    GraftKeepsAliases (behindOne "steps" stepsWithPeers) stepsOfTask stepsWithPeers := by
  have hleaf : stepsWithPeers.Everywhere KeysDiffer := everywhere_keysDiffer_single rfl (.intro List.nodup_nil nofun)
  have hkeys : stepsOfTask.Everywhere KeysDiffer :=
    everywhere_keysDiffer_single rfl (everywhere_keysDiffer_single rfl hleaf)
  have hnamed : stepsOfTask.Everywhere FiledByName := by
    refine .intro ?_ fun p hp => ?_
    · exact List.forall_mem_singleton.2 rfl
    cases List.mem_singleton.1 hp
    refine .intro ?_ fun p hp => ?_
    · exact List.forall_mem_singleton.2 rfl
    cases List.mem_singleton.1 hp
    refine .intro ?_ fun p hp => ?_
    · exact List.forall_mem_singleton.2 rfl
    cases List.mem_singleton.1 hp
    exact .intro nofun nofun
  exact ⟨hkeys, hnamed, (graftKeepsAliases_iff hkeys).2 hnamed _ _ (everywhere_keysDiffer_single rfl hleaf) rfl⟩

/-- The steps of tasks, each with its task. -/
def stepsWithTask : ActionTree :=
  { empty with
    name := some "steps"
    relations := [("task", { empty with name := some "task", select := .fields [.field "id"] })] }

/-- The steps of tasks, each with a task that has no name, and with peers that have another name. -/
def misfiledSteps : ActionTree :=
  { empty with
    name := some "steps"
    relations := [("task", empty), ("peers", { empty with name := some "task", select := .fields [.field "label"] })] }

/-- Merging the misfiled steps drops one alias, makes up another one, and merges levels that had different ones. The
steps can be read from a text. -/
theorem not_graftKeepsAliases_misfiled : ofJsonText? misfiledSteps.jsonText = some misfiledSteps ∧
    (behindOne "steps" stepsWithTask).Everywhere KeysDiffer ∧ misfiledSteps.Everywhere KeysDiffer ∧
    ¬GraftKeepsAliases (behindOne "steps" stepsWithTask) misfiledSteps stepsWithTask ∧
    ∃ merged, Keyed.find? "steps" ((behindOne "steps" stepsWithTask).graft misfiledSteps).relations = some merged ∧
      merged.aliasesAt [] = ["task", ""] ∧
      (merged.levelAt? ["task"]).map ActionTree.select = some (.fields [.field "id", .field "label"]) := by
  have hleaf (name : Option String) (select : Selection) : { empty with name, select }.Everywhere KeysDiffer :=
    .intro List.nodup_nil nofun
  have hkeys : misfiledSteps.Everywhere KeysDiffer := by
    have hlabels : ["task", "peers"].Nodup := by decide
    refine .intro hlabels fun p hp => ?_
    rcases List.mem_pair.1 hp with rfl | rfl
    · exact hleaf none _
    · exact hleaf (some "task") _
  have hread : ofJsonText? misfiledSteps.jsonText = some misfiledSteps := by
    have hvalues : misfiledSteps.Everywhere Floatless := by
      refine .intro nofun fun p hp => ?_
      rcases List.mem_pair.1 hp with rfl | rfl <;> exact .intro nofun nofun
    have hdepth : misfiledSteps.toJson.nesting ≤ maxJsonDepth := by decide
    have htext : Json.read? misfiledSteps.jsonText = some misfiledSteps.toJson :=
      Json.read?_text (writable_toJson hvalues)
    rw [ofJsonText?, htext]
    exact ofJson?_toJson hkeys hvalues hdepth
  obtain ⟨merged, hmerged, haliases, hlevel⟩ :
      ∃ merged, Keyed.find? "steps" ((behindOne "steps" stepsWithTask).graft misfiledSteps).relations = some merged ∧
        merged.aliasesAt [] = ["task", ""] ∧
        (merged.levelAt? ["task"]).map ActionTree.select = some (.fields [.field "id", .field "label"]) :=
    ⟨_, rfl, by decide, by decide⟩
  refine ⟨hread, everywhere_keysDiffer_single rfl (everywhere_keysDiffer_single rfl (hleaf _ _)), hkeys,
    fun h => ?_, merged, hmerged, haliases, hlevel⟩
  obtain ⟨merged', hmerged', hkeeps⟩ := h.merged
  cases hmerged.symm.trans hmerged'
  have hpeers : "peers" ∈ merged.aliasesAt [] := (hkeeps.aliases [] "peers").2 (.inr (by decide))
  rw [haliases] at hpeers
  exact absurd hpeers (by decide)

end TreeQuery.ActionTree
