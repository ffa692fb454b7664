import Mathlib.Data.List.Nodup
import TreeQuery.Proofs.Blame
import TreeQuery.Proofs.Searching
import TreeQuery.Proofs.Shape
import TreeQuery.Proofs.Sql.Parts
import TreeQuery.Proofs.WellFormed

/-!
# Keys of objects

The objects that a query makes have no key twice, but for one thing: the check of a registry does not compare the
aliases of the fields of an entity with each other, and a level that asks for all fields shows both of two fields with
one alias. The keys of all objects differ iff no level does that, and so they do in every query over a registry whose
entities have fields with different aliases (`keysDiffer_ofText_iff`). A text that passes everything and gets a key
twice is in `repeats_key_sameAlias`.

The objects in a select are those of the levels of its plan that show something (`objects_query`): a level has its
fields as keys and then its relations that show something (`PlannedLevel.keys`). The relations differ from each other
as the relations of a tree do, and from the fields by the check of the registry (`nodup_keys_of_plan`).
-/

namespace TreeQuery

open Outcome Sql

/-! ## Objects of a select -/

namespace Sql

/-- Every other one of some expressions, from the first on: of keys and values in turn, the keys. -/
def everyOther : List Expr → List Expr
  | key :: _ :: rest => key :: everyOther rest
  | rest => rest

/-- The keys of the object that an expression makes. -/
def Expr.objectKeys? : Expr → Option (List Expr)
  | .call function arguments => if function = "json_object" then some (everyOther arguments) else none
  | _ => none

/-- The keys of each object that some expressions make. -/
def objectsIn (parts : List Expr) : List (List Expr) := parts.filterMap Expr.objectKeys?

/-- The keys of each object that is made anywhere in a select. -/
def Select.objects (s : Select) : List (List Expr) := objectsIn s.parts

/-- All objects in a select have texts as keys, and no text twice. -/
def Select.KeysDiffer (s : Select) : Prop :=
  ∀ keys ∈ s.objects, ∃ labels : List String, keys = labels.map .text ∧ labels.Nodup

end Sql

/-- Objects are made by payloads alone. -/
theorem overlooks_objectKeys? : Overlooks Expr.objectKeys? where
  column _ _ := rfl
  text _ := rfl
  call _ _ hname := if_neg hname
  binary _ _ _ := rfl
  isNull _ _ := rfl
  inList _ _ := rfl
  case _ _ _ := rfl
  rowNumber _ _ := rfl

/-! ## Objects of a plan -/

/-- The members that joined levels add: those that show something. -/
def joinKeys (joins : List (JoinedLevel PlannedLevel)) : List String :=
  (joins.filter fun j => j.level.output).map JoinedLevel.label

/-- The keys of the object of a planned level. -/
def PlannedLevel.keys (l : PlannedLevel) : List String := l.fields.map EntityField.label ++ joinKeys l.relations

mutual

/-- The keys of the objects of all levels of a plan that show something. -/
def PlannedLevel.objects : PlannedLevel → List (List String)
  | ⟨_, output, fields, _, _, _, _, relations⟩ =>
    (if output then [fields.map EntityField.label ++ joinKeys relations] else []) ++ joinObjects relations

/-- The keys of the objects behind some joins. -/
def joinObjects : List (JoinedLevel PlannedLevel) → List (List String)
  | [] => []
  | ⟨_, _, _, level⟩ :: rest => level.objects ++ joinObjects rest

end

theorem mem_joinObjects {joins : List (JoinedLevel PlannedLevel)} {keys : List String} :
    keys ∈ joinObjects joins ↔ ∃ j ∈ joins, keys ∈ j.level.objects := by
  induction joins with
  | nil => simp [joinObjects]
  | cons j rest ih => rw [joinObjects, List.mem_append, ih, List.exists_mem_cons_iff]

theorem mem_objects {l : PlannedLevel} {keys : List String} :
    keys ∈ l.objects ↔ l.output = true ∧ keys = l.keys ∨ ∃ j ∈ l.relations, keys ∈ j.level.objects := by
  obtain ⟨_, output, fields, _, _, _, _, relations⟩ := l
  rw [PlannedLevel.objects, List.mem_append, mem_joinObjects]
  cases output <;> simp [PlannedLevel.keys]

mutual

/-- A level that is left for its conditions makes no objects. -/
theorem objects_onlyConditions : ∀ l : PlannedLevel, l.onlyConditions.objects = []
  | ⟨_, _, _, _, _, _, _, relations⟩ => by
    rw [PlannedLevel.onlyConditions, PlannedLevel.objects, joinObjects_onlyRestricting relations]
    rfl

theorem joinObjects_onlyRestricting : ∀ joins : List (JoinedLevel PlannedLevel),
    joinObjects (PlannedLevel.onlyRestricting joins) = []
  | [] => rfl
  | ⟨_, _, _, level⟩ :: rest => by
    rw [PlannedLevel.onlyRestricting]
    split
    · rw [joinObjects, objects_onlyConditions level, joinObjects_onlyRestricting rest]
      rfl
    · exact joinObjects_onlyRestricting rest

end

/-! ### The select of a plan -/

theorem everyOther_fieldEntries (table : String) (fields : List EntityField) (rest : List Expr) :
    everyOther (fieldEntries table fields ++ rest) =
      (fields.map EntityField.label).map .text ++ everyOther rest := by
  induction fields with
  | nil => rfl
  | cons f fields ih => exact congrArg (Expr.text f.label :: ·) ih

/-- A relation adds its label to the keys of the payload, if it shows something. -/
theorem everyOther_attachment (table label : String) (rel : Relationship) (kind : JoinKind) (level : PlannedLevel)
    (inner : Select) (rows array : String) (rest : List Expr) :
    everyOther ((attachment table label rel kind level inner rows array).payload ++ rest) =
      if level.output then .text label :: everyOther rest else everyOther rest := by
  cases houtput : level.output <;> simp [attachment, houtput, everyOther]

/-- What relations add to the keys of the payload are the labels of those that show something. -/
theorem everyOther_attachments {joins : List (JoinedLevel PlannedLevel)} {entity : Entity} {table : String} {n : Nat}
    {as : List Attachment} (h : attachments entity table n joins = .ok as) :
    everyOther (as.flatMap Attachment.payload) = (joinKeys joins).map .text := by
  induction joins generalizing n as with
  | nil => cases h; rfl
  | cons j rest ih =>
    obtain ⟨label, relationship, kind, level⟩ := j
    obtain ⟨_, inner, later, _, hlater, rfl⟩ := attachments_cons_eq_ok.1 h
    rw [List.flatMap_cons, everyOther_attachment, ih hlater]
    cases houtput : level.output <;> simp [joinKeys, houtput]

mutual

/-- The select of a level makes the objects of the level. -/
theorem objects_select : ∀ {l : PlannedLevel} {n : Nat} {position : Standing} {s : Select},
    l.select n position = .ok s → s.objects = l.objects.map (List.map .text)
  | ⟨_, output, fields, _, _, _, _, relations⟩, n, _, _, h => by
    obtain ⟨as, cs, has, hcs, hfound⟩ := overlooks_objectKeys?.filterMap_select h
    have hconditions := overlooks_objectKeys?.filterMap_conditions (fun _ => rfl) hcs
    rw [Select.objects, objectsIn, hfound, hconditions, List.append_nil, PlannedLevel.objects, List.map_append,
      ← objects_attachments has]
    refine congrArg (· ++ _) ?_
    cases output with
    | false => rfl
    | true =>
      have hkeys : everyOther (fieldEntries (tableAlias n) fields ++ as.flatMap Attachment.payload) =
          (fields.map EntityField.label ++ joinKeys relations).map .text := by
        rw [everyOther_fieldEntries, everyOther_attachments has, List.map_append]
      exact congrArg (fun keys => [keys]) hkeys

/-- The joins of some relations make the objects of the relations. -/
theorem objects_attachments : ∀ {relations : List (JoinedLevel PlannedLevel)} {entity : Entity} {table : String}
    {n : Nat} {as : List Attachment}, attachments entity table n relations = .ok as →
      objectsIn (joinsParts (as.map Attachment.join)) = (joinObjects relations).map (List.map .text)
  | [], _, _, _, _, h => by
    cases h
    rfl
  | ⟨label, relationship, kind, level⟩ :: rest, entity, table, n, as, h => by
    obtain ⟨_, inner, later, hinner, hlater, rfl⟩ := attachments_cons_eq_ok.1 h
    rw [List.map_cons, objectsIn, overlooks_objectKeys?.filterMap_joinsParts_of_int (fun _ => rfl), joinObjects,
      List.map_append, ← objects_select hinner, ← objects_attachments hlater]
    rfl

end

/-- A query makes the objects of the levels of its plan. -/
theorem objects_query {l : PlannedLevel} {q : Query} (h : l.query = .ok q) :
    q.select.objects = l.objects.map (List.map .text) := by
  obtain ⟨inner, hinner, rfl⟩ := PlannedLevel.query_eq_ok.1 h
  rw [← objects_select hinner]
  exact overlooks_objectKeys?.filterMap_documentSelect inner (tableAlias l.aliasCount)

theorem text_injective : Function.Injective Expr.text := fun _ _ h => Expr.text.inj h

/-- The keys of a query differ iff those of each level of its plan do. -/
theorem keysDiffer_query_iff {l : PlannedLevel} {q : Query} (h : l.query = .ok q) :
    q.select.KeysDiffer ↔ ∀ keys ∈ l.objects, keys.Nodup := by
  rw [Select.KeysDiffer, objects_query h, List.forall_mem_map]
  refine forall₂_congr fun keys _ => ⟨?_, fun hkeys => ⟨keys, rfl, hkeys⟩⟩
  rintro ⟨labels, hlabels, hnodup⟩
  rw [List.map_injective_iff.2 text_injective hlabels]
  exact hnodup

/-! ## Keys of a level -/

section Fields

variable {e : Entity} {selectors : List Selector}

theorem nodup_eraseDups (labels : List String) : labels.eraseDups.Nodup := by
  have h : (labels.foldl addNew []).Nodup := nodup_foldl_addNew List.nodup_nil labels
  rw [foldl_addNew] at h
  simpa using h

/-- Fields that are named are shown once each, so only a level that asks for all fields can show a label twice. -/
theorem nodup_shownLabels_iff : (shownLabels e selectors).Nodup ↔
    (.wildcard ∈ selectors →
      ((e.fields.map EntityField.label).filter fun label => .exclude label ∉ selectors).Nodup) := by
  unfold shownLabels
  split
  · rename_i hall
    simp only [hall, forall_const]
  · rename_i hall
    simp only [hall, false_imp_iff, iff_true]
    exact nodup_eraseDups _

theorem mem_of_namedFields {found fields : List EntityField} (h : namedFields e found selectors = .ok fields) :
    ∀ f ∈ fields, f ∈ found ∨ f ∈ e.fields := by
  induction selectors generalizing found with
  | nil =>
    cases h
    exact fun f hf => .inl hf
  | cons s rest ih =>
    cases s with
    | field label =>
      obtain ⟨g, hg, hrest⟩ := bind_eq_ok.1 h
      have hfield : g ∈ e.fields := List.mem_of_find?_eq_some (requireField_eq_ok.1 hg)
      refine fun f hf => (ih hrest f hf).elim (fun hf => ?_) .inr
      unfold addNew at hf
      split at hf
      · exact .inl hf
      · rcases List.mem_append.1 hf with hf | hf
        · exact .inl hf
        · cases List.mem_singleton.1 hf
          exact .inr hfield
    | wildcard => exact ih h
    | exclude label => exact ih h

/-- The fields of a planned level are fields of its entity. -/
theorem mem_of_selectedFields {select : Selection} {fields : List EntityField}
    (h : selectedFields e select = .ok fields) : ∀ f ∈ fields, f ∈ e.fields := by
  intro f hf
  unfold selectedFields at h
  split at h
  · cases h
    exact (List.mem_filter.1 hf).1
  · exact (mem_of_namedFields h f hf).resolve_left List.not_mem_nil

end Fields

/-- An entity none of whose relationships has the alias of a field. -/
def Entity.RelationshipsApart (e : Entity) : Prop :=
  ∀ label rel, e.relationship? label = some rel → label ∉ e.fields.map EntityField.label

section Levels

variable {r : Registry} {e : Entity}

theorem relationshipsApart_of_check (h : r.check = .ok ()) {name : String} (he : r.entity? name = some e) :
    e.RelationshipsApart := by
  intro label rel hrel hmem
  have hentity := forM_eq_ok.1 h _ (Keyed.mem_of_find? he)
  have hcheck : r.checkRelationship e label rel = .ok () := forM_eq_ok.1 hentity _ (Keyed.mem_of_find? hrel)
  have hfield : (e.field? label).isSome = true := by
    obtain ⟨f, hf, rfl⟩ := List.mem_map.1 hmem
    exact List.find?_isSome.2 ⟨f, hf, beq_self_eq_true _⟩
  rw [Registry.checkRelationship, if_pos hfield] at hcheck
  split at hcheck <;> cases hcheck

/-- A relation adds its label once if it shows something, however it is joined. -/
theorem joinKeys_joinsOf (label : String) (rel : Relationship) (restricts : Bool) (l : PlannedLevel)
    (later : List (JoinedLevel PlannedLevel)) : joinKeys (joinsOf label rel restricts l ++ later) =
      if l.output then label :: joinKeys later else joinKeys later := by
  unfold joinsOf
  split
  · cases houtput : l.output <;> simp [joinKeys, houtput]
  · split
    · rename_i hpaged
      simp [joinKeys, output_onlyConditions, (Bool.and_eq_true_iff.1 hpaged).1]
    · cases houtput : l.output <;> simp [joinKeys, houtput]

/-- The members that relations add are labels of branches in their order, and all of them are relationships. -/
theorem joinKeys_planBranches {branches : List (Branch RoutedTree)} {joins : List (JoinedLevel PlannedLevel)}
    (h : RoutedTree.planBranches r e branches = .ok joins) :
    (joinKeys joins).Sublist (branches.map Branch.label) ∧
      ∀ label ∈ joinKeys joins, ∃ rel, e.relationship? label = some rel := by
  induction branches generalizing joins with
  | nil =>
    cases h
    exact ⟨.slnil, nofun⟩
  | cons b rest ih =>
    obtain ⟨label, restricts, level⟩ := b
    obtain ⟨rel, d, l, later, hrel, _, _, hlater, rfl⟩ := RoutedTree.planBranches_cons_eq_ok.1 h
    obtain ⟨hsublist, hrelationship⟩ := ih hlater
    rw [joinKeys_joinsOf, List.map_cons]
    split
    · exact ⟨hsublist.cons_cons _, List.forall_mem_cons.2 ⟨⟨rel, hrel⟩, hrelationship⟩⟩
    · exact ⟨hsublist.cons _, hrelationship⟩

/-- In the plan of a tree the keys of a level differ iff those of its fields do. -/
theorem nodup_keys_of_plan (he : e.RelationshipsApart) {t : ActionTree} {p : PlannedLevel} (hkeys : t.KeysDiffer)
    (h : t.plan r e = .ok p) : p.keys.Nodup ↔ (shownLabels e t.select.selectors).Nodup := by
  obtain ⟨hsublist, hrelationship⟩ := joinKeys_planBranches (planBranches_plan hkeys h)
  have hrelations : (joinKeys p.relations).Nodup := by
    refine hsublist.nodup ?_
    rw [List.map_map]
    exact ActionTree.nodup_keys_pushDown hkeys
  have hfields : selectedFields e t.select = .ok p.fields := by
    obtain ⟨_, _, _, _, _, hfields, _, _, rfl⟩ := RoutedTree.plan_eq_ok.1 h
    rwa [ActionTree.select_route] at hfields
  rw [PlannedLevel.keys, ← labels_selectedFields hfields, List.nodup_append]
  refine ⟨And.left, fun hlabels => ⟨hlabels, hrelations, fun field hfield label hlabel hsame => ?_⟩⟩
  obtain ⟨f, hf, rfl⟩ := List.mem_map.1 hfield
  obtain ⟨rel, hrel⟩ := hrelationship label hlabel
  exact he label rel hrel (hsame ▸ List.mem_map_of_mem (mem_of_selectedFields hfields f hf))

end Levels

/-! ## Keys of a tree -/

/-- Wherever a tree asks for all fields of an entity, the fields that it does not leave out have different aliases. -/
inductive ActionTree.FieldsDiffer (r : Registry) : Entity → ActionTree → Prop
  | intro {e : Entity} {t : ActionTree}
      (here : t.select.isOutput = true → .wildcard ∈ t.select.selectors →
        ((e.fields.map EntityField.label).filter fun label => .exclude label ∉ t.select.selectors).Nodup)
      (inside : ∀ p ∈ t.relations, ∀ d, r.follow? e p.1 = some d → FieldsDiffer r d p.2) : FieldsDiffer r e t

section Trees

variable {r : Registry} {e : Entity} {t : ActionTree}

theorem ActionTree.FieldsDiffer.inside (h : t.FieldsDiffer r e) :
    ∀ p ∈ t.relations, ∀ d, r.follow? e p.1 = some d → p.2.FieldsDiffer r d := by
  cases h with
  | intro _ inside => exact inside

theorem ActionTree.fieldsDiffer_iff : t.FieldsDiffer r e ↔
    (t.select.isOutput = true → (shownLabels e t.select.selectors).Nodup) ∧
      ∀ p ∈ t.relations, ∀ d, r.follow? e p.1 = some d → p.2.FieldsDiffer r d := by
  rw [nodup_shownLabels_iff]
  constructor
  · intro h
    cases h with
    | intro here inside => exact ⟨here, inside⟩
  · exact fun ⟨here, inside⟩ => .intro here inside

/-- Filters have no part in it. -/
theorem ActionTree.fieldsDiffer_addFilters (filters : List Filter) :
    (t.addFilters filters).FieldsDiffer r e ↔ t.FieldsDiffer r e := by
  rw [addFilters_eq, fieldsDiffer_iff, fieldsDiffer_iff]

theorem ActionTree.fieldsDiffer_unselected (name : String) : (ActionTree.unselected name).FieldsDiffer r e :=
  .intro nofun nofun

/-- The levels behind the relations of a tree are the same in this after filters are handed down; those that are made
for filters show nothing. -/
theorem ActionTree.fieldsDiffer_pushDown_iff (hkeys : t.KeysDiffer) :
    (∀ p ∈ t.pushDown, ∀ d, r.follow? e p.1 = some d → p.2.FieldsDiffer r d) ↔
      ∀ p ∈ t.relations, ∀ d, r.follow? e p.1 = some d → p.2.FieldsDiffer r d := by
  constructor
  · rintro h ⟨label, child⟩ hp d hd
    by_cases hhead : label ∈ heads t.filters
    · have hnarrowed := h (label, t.narrowed label) ((mem_pushDown hkeys).2 (.inl ⟨hhead, rfl⟩)) d hd
      have hbehind : t.behind label = child := by
        rw [behind, (Keyed.mem_iff_find? hkeys).1 hp]
        rfl
      rwa [narrowed, fieldsDiffer_addFilters, hbehind] at hnarrowed
    · exact h _ ((mem_pushDown hkeys).2 (.inr ⟨hhead, hp⟩)) d hd
  · rintro h ⟨label, child⟩ hp d hd
    rcases (mem_pushDown hkeys).1 hp with ⟨_, rfl⟩ | ⟨_, hp⟩
    · rw [narrowed, fieldsDiffer_addFilters, behind]
      cases hfind : Keyed.find? label t.relations with
      | none => exact fieldsDiffer_unselected label
      | some child => exact h _ (Keyed.mem_of_find? hfind) d hd
    · exact h _ hp d hd

/-- The keys of all objects of a plan differ iff the fields do wherever its tree asks for all of them. -/
theorem nodup_objects_of_plan
    (hr : ∀ {name : String} {e : Entity}, r.entity? name = some e → e.RelationshipsApart) (he : e.RelationshipsApart)
    (hkeys : t.Everywhere ActionTree.KeysDiffer) {p : PlannedLevel} (h : t.plan r e = .ok p) :
    (∀ keys ∈ p.objects, keys.Nodup) ↔ t.FieldsDiffer r e := by
  induction t, hkeys using ActionTree.pushDown_induction generalizing e p with
  | step t hkeys ih =>
    have hbehind {label : String} {child : ActionTree} {rel : Relationship} {l : PlannedLevel} {d : Entity}
        (hp : (label, child) ∈ t.pushDown) (hd : r.entity? rel.target = some d) (hl : child.plan r d = .ok l) :
        (∀ keys ∈ l.objects, keys.Nodup) ↔ child.FieldsDiffer r d := ih _ hp (hr hd) hl
    rw [ActionTree.fieldsDiffer_iff, ← ActionTree.fieldsDiffer_pushDown_iff hkeys.here, ← output_of_plan h,
      ← nodup_keys_of_plan he hkeys.here h]
    constructor
    · refine fun hobjects => ⟨fun houtput => hobjects _ (mem_objects.2 (.inl ⟨houtput, rfl⟩)), ?_⟩
      rintro ⟨label, child⟩ hp d' hd'
      obtain ⟨rel, l, d, hrel, hd, hl⟩ := exists_plansBehind hkeys.here h hp
      cases (Registry.follow?_eq_some.2 ⟨rel, hrel, hd⟩).symm.trans hd'
      refine (hbehind hp hd hl).1 fun keys hmem => hobjects keys (mem_objects.2 (.inr ?_))
      obtain ⟨j, hj, rfl⟩ : ∃ j ∈ joinsOf label rel (decide (label ∈ heads t.filters)) l, j.level = l := by
        rcases joinsOf_outer_or_inner label rel (decide (label ∈ heads t.filters)) l with houter | hinner
        · exact ⟨_, houter, rfl⟩
        · rw [hinner]
          exact ⟨_, List.mem_singleton_self _, rfl⟩
      exact ⟨j, (mem_relations_plan hkeys.here h).2 ⟨label, child, hp, rel, j.level, ⟨_, hrel, hd, hl⟩, hj⟩, hmem⟩
    · rintro ⟨hhere, hinside⟩ keys hmem
      rcases mem_objects.1 hmem with ⟨houtput, rfl⟩ | ⟨j, hj, hmem⟩
      · exact hhere houtput
      · obtain ⟨label, child, hp, rel, l, ⟨d, hrel, hd, hl⟩, hj⟩ := (mem_relations_plan hkeys.here h).1 hj
        obtain ⟨_, _, hlevel | ⟨_, hlevel, _⟩⟩ := level_of_mem_joinsOf hj
        · rw [hlevel] at hmem
          exact (hbehind hp hd hl).2 (hinside _ hp d (Registry.follow?_eq_some.2 ⟨rel, hrel, hd⟩)) keys hmem
        · rw [hlevel, objects_onlyConditions] at hmem
          cases hmem

end Trees

/-! ## Queries -/

/-- Over entities with fields of different aliases, no tree shows an alias twice. -/
theorem fieldsDiffer_of_nodup {r : Registry} (hr : ∀ p ∈ r.entities, (p.2.fields.map EntityField.label).Nodup)
    {t : ActionTree} (ht : t.Everywhere ActionTree.KeysDiffer) {e : Entity}
    (he : (e.fields.map EntityField.label).Nodup) : t.FieldsDiffer r e := by
  induction ht generalizing e with
  | intro _ _ ih =>
    refine .intro (fun _ _ => he.filter _) fun p hp d hd => ih p hp ?_
    obtain ⟨_, _, hentity⟩ := Registry.follow?_eq_some.1 hd
    exact hr _ (Keyed.mem_of_find? hentity)

/-- **No key twice, unless a field is.** Over a registry that passes its check, the objects that the query of a text
makes, at all levels, have texts as keys and no key twice iff, wherever the text asks for all fields of an entity, the
fields that it does not leave out have different aliases. So it is in every query if the aliases of the fields of each
entity differ, which the check does not look at. -/
theorem keysDiffer_ofText_iff {r : Registry} {name text : String} {q : Query} (hcheck : r.check = .ok ())
    (h : Query.ofText r name text = .ok q) :
    ∃ e t, r.require name = .ok e ∧ ActionTree.ofText text = .ok t ∧ (q.select.KeysDiffer ↔ t.FieldsDiffer r e) ∧
      ((∀ p ∈ r.entities, (p.2.fields.map EntityField.label).Nodup) → q.select.KeysDiffer) := by
  obtain ⟨e, t, he, ht, _, hcompile⟩ := Query.ofText_eq_ok.1 h
  obtain ⟨p, hp, hquery⟩ := compile_eq_ok.1 hcompile
  have hentity : r.entity? name = some e := require_eq_ok.1 he
  have hiff : q.select.KeysDiffer ↔ t.FieldsDiffer r e := by
    rw [keysDiffer_query_iff hquery]
    exact nodup_objects_of_plan (relationshipsApart_of_check hcheck) (relationshipsApart_of_check hcheck hentity)
      (ActionTree.keysDiffer_ofText ht) hp
  exact ⟨e, t, he, ht, hiff, fun hfields => hiff.2
    (fieldsDiffer_of_nodup hfields (ActionTree.keysDiffer_ofText ht) (hfields _ (Keyed.mem_of_find? hentity)))⟩

theorem keysDiffer_ofText_iff_steps : taskRegistry.check = .ok () ∧ ∃ q,
    Query.ofText taskRegistry "task" "q=(label,label,steps(*,!id).limit(1),id).filter(steps.id>1)" = .ok q ∧
      q.select.KeysDiffer ∧ q.select.objects =
        [[.text "label", .text "id", .text "steps"], [.text "label"]] := by
  have hcheck : taskRegistry.check = .ok () := rfl
  obtain ⟨q, hq, hobjects⟩ : ∃ q, Query.ofText taskRegistry "task"
      "q=(label,label,steps(*,!id).limit(1),id).filter(steps.id>1)" = .ok q ∧ q.select.objects =
        [[.text "label", .text "id", .text "steps"], [.text "label"]] :=
    ⟨_, Query.ofText_eq_ok.2 ⟨_, _, rfl, ActionTree.ofText_eq_ok.2 ⟨⟨[.name "label", .name "label",
      .relation "steps" ⟨[.wildcard, .excluded "id"], [.limit 1]⟩, .name "id"],
      [.filter ["steps", "id"] (.compare .greater) (.int 1)]⟩, rfl, rfl⟩, rfl, rfl⟩, rfl⟩
  obtain ⟨_, _, _, _, _, hdiffer⟩ := keysDiffer_ofText_iff hcheck hq
  exact ⟨hcheck, q, hq, hdiffer (by decide), hobjects⟩

/-- Tasks that show two columns under one alias. -/
def sameAliasEntity : Entity := { taskEntity with fields := [⟨"id", "id"⟩, ⟨"title", "id"⟩] }

/-- The registry of such tasks and of steps. -/
def sameAliasRegistry : Registry := ⟨[("task", sameAliasEntity), ("step", stepEntity)]⟩

/-- Two fields with one alias pass the check of a registry, and a text that asks for all fields gets the key twice. -/
theorem repeats_key_sameAlias : sameAliasRegistry.check = .ok () ∧
    ∃ q, Query.ofText sameAliasRegistry "task" "q=(*)" = .ok q ∧ q.select.objects = [[.text "id", .text "id"]] ∧
      ¬q.select.KeysDiffer := by
  obtain ⟨q, hq, hobjects⟩ : ∃ q, Query.ofText sameAliasRegistry "task" "q=(*)" = .ok q ∧
      q.select.objects = [[.text "id", .text "id"]] :=
    ⟨_, Query.ofText_eq_ok.2 ⟨_, _, rfl, ActionTree.ofText_eq_ok.2 ⟨⟨[.wildcard], []⟩, rfl, rfl⟩, rfl, rfl⟩, rfl⟩
  refine ⟨rfl, q, hq, hobjects, fun hdiffer => ?_⟩
  obtain ⟨labels, hlabels, hnodup⟩ := hdiffer [.text "id", .text "id"] (by rw [hobjects]; exact List.mem_cons_self)
  have hsame : labels = ["id", "id"] := List.map_injective_iff.2 text_injective hlabels.symm
  rw [hsame] at hnodup
  exact absurd hnodup (by decide)

end TreeQuery
