import TreeQuery.Proofs.Aliases
import TreeQuery.Proofs.PlanLevels
import TreeQuery.Proofs.Sql.Shape

/-!
# The shape of the document

The document of a query has the shape that its selectors ask for (`shape_compile`): the objects of a level have the
selected fields and then the relations that show something, one or an array of them as the relationship says.

What a tree shows is its selectors and the relations that show something (`ActionTree.shown`); routing does not change
it, as the levels that it makes show nothing (`shown_route`). The plan of the tree has the shape that it asks for
(`shape_of_plan`), and so has the select of the plan, read through its joins (`columnShape?_select`).
-/

namespace TreeQuery

open Outcome Sql

/-! ## What a tree shows -/

/-- What a level shows: its fields, and the levels behind its relations that show something. -/
structure Shown where
  selectors : List Selector
  relations : List (String × Shown)

mutual

/-- What a tree shows. -/
def ActionTree.shown : ActionTree → Shown
  | ⟨_, select, _, _, _, _, relations⟩ => ⟨select.selectors, shownRelations relations⟩

/-- What is shown behind some relations. -/
def shownRelations : List (String × ActionTree) → List (String × Shown)
  | [] => []
  | (label, child) :: rest =>
    if child.select.isOutput then (label, child.shown) :: shownRelations rest else shownRelations rest

end

/-- The field that a selector names. -/
def Selector.label? : Selector → Option String
  | .field label => some label
  | _ => none

/-- The fields that selectors show: all but the excluded ones if all are asked for, and otherwise those that are named,
in order of first appearance. -/
def shownLabels (e : Entity) (selectors : List Selector) : List String :=
  if .wildcard ∈ selectors then (e.fields.map EntityField.label).filter fun label => .exclude label ∉ selectors
  else (selectors.filterMap Selector.label?).eraseDups

/-- The shape of what a relation adds, given that of the level behind it. -/
def Direction.shape : Direction → Shape → Shape
  | .toOne, level => level
  | .toMany, level | .manyToMany, level => .array level

mutual

/-- The shape that the objects of a level are asked to have. -/
def Shown.shape? (r : Registry) (e : Entity) : Shown → Option Shape
  | ⟨selectors, relations⟩ => do
    let members ← shownMembers? r e relations
    return .object ((shownLabels e selectors).map (·, .scalar) ++ members)

/-- The members that relations are asked to add. -/
def shownMembers? (r : Registry) (e : Entity) : List (String × Shown) → Option (List (String × Shape))
  | [] => some []
  | (label, level) :: rest => do
    let relationship ← e.relationship? label
    let target ← r.entity? relationship.target
    let shape ← level.shape? r target
    let later ← shownMembers? r e rest
    return (label, relationship.direction.shape shape) :: later

end

/-! ### Routing -/

mutual

/-- What a routed tree shows. -/
def RoutedTree.shown : RoutedTree → Shown
  | ⟨select, _, _, _, _, branches⟩ => ⟨select.selectors, shownBranches branches⟩

/-- What is shown behind some branches. -/
def shownBranches : List (Branch RoutedTree) → List (String × Shown)
  | [] => []
  | ⟨label, _, level⟩ :: rest =>
    if level.select.isOutput then (label, level.shown) :: shownBranches rest else shownBranches rest

end

theorem select_place (c : Condition) (via : List String) (t : RoutedTree) : (t.place c via).select = t.select := by
  cases via <;> rfl

/-- What is done to a branch shows no more, if it does not at its level; a branch that is made shows nothing. -/
theorem shownBranches_restrict {f : RoutedTree → RoutedTree} (hselect : ∀ t, (f t).select = t.select)
    (hshown : ∀ t, (f t).shown = t.shown) (label : String) (branches : List (Branch RoutedTree)) :
    shownBranches (RoutedTree.restrict label f branches) = shownBranches branches := by
  induction branches with
  | nil => simp [RoutedTree.restrict, shownBranches, hselect, RoutedTree.unselected, Selection.isOutput]
  | cons b rest ih =>
    obtain ⟨label', restricts, level⟩ := b
    rw [RoutedTree.restrict]
    split
    · simp only [shownBranches, hselect, hshown]
    · simp only [shownBranches, ih]

theorem shown_place (c : Condition) (via : List String) (t : RoutedTree) : (t.place c via).shown = t.shown := by
  induction via generalizing t with
  | nil => cases t; rfl
  | cons head via ih =>
    obtain ⟨select, conditions, sort, limit, offset, branches⟩ := t
    simp only [RoutedTree.place, RoutedTree.shown, shownBranches_restrict (select_place c via) ih]

theorem shown_placeAll (filters : List Filter) (t : RoutedTree) : (t.placeAll filters).shown = t.shown := by
  induction filters generalizing t with
  | nil => rfl
  | cons f filters ih =>
    show (RoutedTree.placeAll (if f.path.isDotted then t.place f.condition f.path.via else t) filters).shown = _
    rw [ih]
    split
    · exact shown_place f.condition f.path.via t
    · rfl

mutual

/-- Routing does not change what a tree shows. -/
theorem shown_route : ∀ t : ActionTree, t.route.shown = t.shown
  | ⟨_, select, filters, _, _, _, relations⟩ => by
    rw [ActionTree.route, shown_placeAll, RoutedTree.shown, ActionTree.shown, shownBranches_routeRelations relations]

theorem shownBranches_routeRelations : ∀ relations : List (String × ActionTree),
    shownBranches (ActionTree.routeRelations relations) = shownRelations relations
  | [] => rfl
  | (label, child) :: rest => by
    rw [ActionTree.routeRelations, shownBranches, shownRelations, ActionTree.select_route, shown_route child,
      shownBranches_routeRelations rest]

end

/-! ## Plans -/

mutual

/-- The shape of the objects of a planned level. -/
def PlannedLevel.shape : PlannedLevel → Shape
  | ⟨_, _, fields, _, _, _, _, relations⟩ =>
    .object (fields.map (fun f => (f.label, .scalar)) ++ joinMembers relations)

/-- The members that joined levels add: those that show something. -/
def joinMembers : List (JoinedLevel PlannedLevel) → List (String × Shape)
  | [] => []
  | ⟨label, relationship, _, level⟩ :: rest =>
    if level.output then (label, relationship.direction.shape level.shape) :: joinMembers rest else joinMembers rest

end

theorem output_onlyConditions (l : PlannedLevel) : l.onlyConditions.output = false := by
  cases l
  rfl

/-- A relation adds one member if it shows something, however it is joined. -/
theorem joinMembers_joinsOf (label : String) (rel : Relationship) (restricts : Bool) (l : PlannedLevel)
    (later : List (JoinedLevel PlannedLevel)) : joinMembers (joinsOf label rel restricts l ++ later) =
      if l.output then (label, rel.direction.shape l.shape) :: joinMembers later else joinMembers later := by
  unfold joinsOf
  split
  · rfl
  · split
    · simp only [List.cons_append, List.nil_append, joinMembers, output_onlyConditions, Bool.false_eq_true, if_false]
    · rfl

theorem foldl_addNew (found labels : List String) :
    labels.foldl addNew found = found ++ (labels.filter (· ∉ found)).eraseDups := by
  induction labels generalizing found with
  | nil => simp
  | cons label labels ih =>
    rw [List.foldl_cons, ih, addNew]
    by_cases h : label ∈ found
    · simp [h]
    · simp only [h, List.filter_cons, not_false_eq_true, decide_true, if_true, if_false, List.eraseDups_cons,
        List.filter_filter, List.append_assoc, List.singleton_append]
      congr 3
      refine List.filter_congr fun x _ => ?_
      by_cases hx : x = label <;> simp [hx]

/-- Fields are told apart by their aliases. -/
theorem map_addNew_label {e : Entity} {found : List EntityField} {f : EntityField}
    (hfound : ∀ g ∈ found, e.field? g.label = some g) (hf : e.field? f.label = some f) :
    (addNew found f).map EntityField.label = addNew (found.map EntityField.label) f.label := by
  have hmem : f.label ∈ found.map EntityField.label ↔ f ∈ found := by
    refine ⟨fun h => ?_, fun h => List.mem_map_of_mem h⟩
    obtain ⟨g, hg, hlabel⟩ := List.mem_map.1 h
    have hsame : some g = some f := by rw [← hfound g hg, hlabel, hf]
    cases hsame
    exact hg
  unfold addNew
  by_cases h : f ∈ found
  · rw [if_pos h, if_pos (hmem.2 h)]
  · rw [if_neg h, if_neg (mt hmem.1 h), List.map_append]
    rfl

theorem labels_namedFields {e : Entity} {selectors : List Selector} {found fields : List EntityField}
    (hfound : ∀ g ∈ found, e.field? g.label = some g) (h : namedFields e found selectors = .ok fields) :
    fields.map EntityField.label =
      (selectors.filterMap Selector.label?).foldl addNew (found.map EntityField.label) := by
  induction selectors generalizing found with
  | nil => cases h; rfl
  | cons s rest ih =>
    cases s with
    | field label =>
      obtain ⟨f, hf, hrest⟩ := bind_eq_ok.1 h
      have hfield : e.field? label = some f := requireField_eq_ok.1 hf
      cases field?_label hfield
      have hnew : ∀ g ∈ addNew found f, e.field? g.label = some g := by
        intro g hg
        unfold addNew at hg
        split at hg
        · exact hfound g hg
        · rcases List.mem_append.1 hg with hg | hg
          · exact hfound g hg
          · cases List.mem_singleton.1 hg
            exact hfield
      rw [ih hnew hrest, map_addNew_label hfound hfield]
      rfl
    | wildcard => exact ih hfound h
    | exclude label => exact ih hfound h

/-- The fields of a planned level are those that its selectors show. -/
theorem labels_selectedFields {e : Entity} {select : Selection} {fields : List EntityField}
    (h : selectedFields e select = .ok fields) :
    fields.map EntityField.label = shownLabels e select.selectors := by
  unfold selectedFields at h
  unfold shownLabels
  split at h
  · cases h
    rename_i hall
    rw [if_pos hall, List.filter_map]
    congr 1
    refine List.filter_congr fun f _ => ?_
    have hexcluded : f.label ∈ excludedAliases select.selectors ↔ .exclude f.label ∈ select.selectors := by
      simp only [excludedAliases, List.mem_filterMap]
      constructor
      · rintro ⟨s, hs, hlabel⟩
        cases s with
        | exclude label => cases hlabel; exact hs
        | _ => cases hlabel
      · exact fun h => ⟨_, h, rfl⟩
    simp [hexcluded]
  · rename_i hall
    rw [if_neg hall, labels_namedFields (by simp) h, List.map_nil, foldl_addNew]
    simp

mutual

/-- The plan of a tree has the shape that the tree asks for. -/
theorem shape_of_plan {r : Registry} : ∀ (t : RoutedTree) {e : Entity} {p : PlannedLevel}, t.plan r e = .ok p →
    t.shown.shape? r e = some p.shape
  | ⟨select, _, _, _, _, branches⟩, e, p, h => by
    obtain ⟨conditions, fields, sort, relations, _, hfields, _, hrelations, rfl⟩ := RoutedTree.plan_eq_ok.1 h
    have hlabels : fields.map EntityField.label = shownLabels e select.selectors := labels_selectedFields hfields
    have hmembers := members_of_planBranches branches hrelations
    simp only [RoutedTree.shown, Shown.shape?, hmembers, ← hlabels, PlannedLevel.shape, List.map_map]
    rfl

theorem members_of_planBranches {r : Registry} : ∀ (branches : List (Branch RoutedTree)) {e : Entity}
    {joins : List (JoinedLevel PlannedLevel)}, RoutedTree.planBranches r e branches = .ok joins →
      shownMembers? r e (shownBranches branches) = some (joinMembers joins)
  | [], _, _, h => by cases h; rfl
  | ⟨label, restricts, level⟩ :: rest, e, joins, h => by
    obtain ⟨rel, d, l, later, hrel, hd, hl, hlater, rfl⟩ := RoutedTree.planBranches_cons_eq_ok.1 h
    have hlevel := shape_of_plan level hl
    have hrest := members_of_planBranches rest hlater
    have houtput : l.output = level.select.isOutput := by
      obtain ⟨_, _, _, _, _, _, _, _, rfl⟩ := RoutedTree.plan_eq_ok.1 hl
      rfl
    rw [joinMembers_joinsOf, houtput, shownBranches]
    split
    · simp only [shownMembers?, hrel, hd, hlevel, hrest, Option.bind_eq_bind, Option.bind_some]
      rfl
    · exact hrest

end

/-! ## Compiled levels -/

/-- Aliases of some sources that are all taken before the next one. -/
def TakenBefore (n : Nat) (sources : SourceShapes) : Prop := ∀ key ∈ Keyed.keys sources, ∃ m < n, key = tableAlias m

section Sources

variable {n : Nat} {before : SourceShapes}

/-- A new alias finds its own source. -/
theorem column_of_takenBefore (h : TakenBefore n before) {m : Nat} (hm : n ≤ m)
    (columns : List (String × Shape)) (later : SourceShapes) (name : String) :
    SourceShapes.column (before ++ (tableAlias m, columns) :: later) (tableAlias m) name =
      (Keyed.find? name columns).getD .scalar := by
  have hnew : tableAlias m ∉ Keyed.keys before := by
    intro hmem
    obtain ⟨k, hk, halias⟩ := h _ hmem
    have hmk : m = k := tableAlias_injective halias
    omega
  rw [SourceShapes.column, Keyed.find?_append_cons hnew]
  rfl

theorem takenBefore_concat (h : TakenBefore n before) {m n' : Nat} (hm : m < n') (hn : n ≤ n')
    (columns : List (String × Shape)) : TakenBefore n' (before ++ [(tableAlias m, columns)]) := by
  intro key hkey
  rw [Keyed.keys, List.map_append] at hkey
  rcases List.mem_append.1 hkey with hkey | hkey
  · obtain ⟨k, hk, rfl⟩ := h key hkey
    exact ⟨k, by omega, rfl⟩
  · cases List.mem_singleton.1 hkey
    exact ⟨m, hm, rfl⟩

end Sources

section Levels

variable {inner : Select} {rows array table label : String} {limit offset : Option UInt64} {rel : Relationship}
  {kind : JoinKind} {level : PlannedLevel} {element : Shape}

/-- A column of a derived table is what the select in it shows. -/
theorem column_of_derived {column : String} (h : inner.columnShape? column = some element) :
    SourceShapes.column [(rows, inner.shapes)] rows column = element := by
  rw [SourceShapes.column, Keyed.find?, if_pos rfl, Option.bind_some]
  exact congrArg (Option.getD · .scalar) h

/-- The array of a derived table holds what the payload of the select in it is. -/
theorem columnShape?_folded (h : inner.columnShape? payloadColumn = some element) (rows : String)
    (limit offset : Option UInt64) :
    (folded inner rows true limit offset).columnShape? arrayColumn = some (.array element) := by
  show some (Shape.array (SourceShapes.column [(rows, inner.shapes)] rows payloadColumn)) = _
  rw [column_of_derived h]

/-- What a relation adds to the payload is an array of payloads, or a single one. -/
theorem shape_partnerValue {columns : String → String → Shape} {direction : Direction}
    (h : columns array arrayColumn = .array element) :
    (partnerValue direction array).shape columns = direction.shape element := by
  cases direction <;> simp [partnerValue, Expr.shape, argumentShapes, callShape, h] <;> rfl

/-- A relation that shows something adds one member to the payload. -/
theorem objectMembers_attachment {columns : String → String → Shape}
    (h : level.output = true → columns array arrayColumn = .array level.shape) (rest : List (Option String × Shape)) :
    objectMembers (argumentShapes columns (attachment table label rel kind level inner rows array).payload ++ rest) =
      if level.output then (label, rel.direction.shape level.shape) :: objectMembers rest else objectMembers rest := by
  cases houtput : level.output with
  | false => simp [attachment, houtput, argumentShapes]
  | true =>
    have hvalue : (partnerValue rel.direction array).shape columns = rel.direction.shape level.shape :=
      shape_partnerValue (h houtput)
    simp [attachment, houtput, argumentShapes, Expr.literal?, objectMembers, hvalue]

/-- The payload of a level is what its object is, wherever the level stands. -/
theorem columnShape?_placed {base : Select} {payload : Expr} (hitems : base.items = [(payload, some payloadColumn)])
    (position : Standing) (table : String) (order : List (Expr × SortOrder)) (limit offset : Option UInt64) :
    (placed base position table order limit offset).columnShape? payloadColumn =
      some (payload.itemShape (SourceShapes.column (sourceShapes base.source :: joinsShapes base.joins))) := by
  rw [Select.columnShape?, Select.shapes_eq, placed_source, placed_joins]
  cases position with
  | root => rw [placed, hitems]; rfl
  | child column => rw [placed, hitems]; rfl

theorem objectMembers_fieldEntries {columns : String → String → Shape} (h : ∀ name, columns table name = .scalar)
    (fields : List EntityField) (rest : List (Option String × Shape)) :
    objectMembers (argumentShapes columns (fieldEntries table fields) ++ rest) =
      fields.map (fun f => (f.label, .scalar)) ++ objectMembers rest := by
  induction fields with
  | nil => rfl
  | cons f fields ih =>
    show (f.label, columns table f.column) ::
      objectMembers (argumentShapes columns (fieldEntries table fields) ++ rest) = _
    rw [h, ih]
    rfl

/-- An object of a level has its fields, and then what its relations add. -/
theorem shape_payload {columns : String → String → Shape} (h : ∀ name, columns table name = .scalar)
    (fields : List EntityField) (entries : List Expr) :
    (Expr.call "json_object" (fieldEntries table fields ++ entries)).itemShape columns =
      .object (fields.map (fun f => (f.label, .scalar)) ++ objectMembers (argumentShapes columns entries)) := by
  show Shape.object (objectMembers (argumentShapes columns (fieldEntries table fields ++ entries))) = _
  rw [argumentShapes_append, objectMembers_fieldEntries h]

end Levels

mutual

/-- The payload of a compiled level has the shape of the level. -/
theorem columnShape?_select : ∀ (l : PlannedLevel) {n : Nat} {position : Standing} {s : Select},
    l.select n position = .ok s → l.output = true → s.columnShape? payloadColumn = some l.shape
  | ⟨e, output, fields, conditions, sort, limit, offset, relations⟩, n, position, s, h, houtput => by
    obtain ⟨as, cs, has, _, rfl⟩ := PlannedLevel.select_eq_ok.1 h
    have houtput : output = true := houtput
    subst houtput
    have hempty : TakenBefore n [] := nofun
    have htaken : TakenBefore (n + 1) [(tableAlias n, [])] := takenBefore_concat hempty n.lt_succ_self n.le_succ []
    have hmembers := objectMembers_attachments relations has htaken
    have hfields (name : String) : SourceShapes.column ((tableAlias n, []) :: joinsShapes (as.map Attachment.join))
        (tableAlias n) name = .scalar := column_of_takenBefore hempty n.le_refl [] _ name
    refine (columnShape?_placed rfl position _ _ limit offset).trans ?_
    refine congrArg some ((shape_payload hfields fields _).trans ?_)
    exact congrArg (fun members => Shape.object (_ ++ members)) hmembers

theorem objectMembers_attachments : ∀ (joins : List (JoinedLevel PlannedLevel)) {entity : Entity} {table : String}
    {n : Nat} {relations : List Attachment} {before : SourceShapes},
    attachments entity table n joins = .ok relations → TakenBefore n before →
      objectMembers (argumentShapes (SourceShapes.column (before ++ joinsShapes (relations.map Attachment.join)))
        (relations.flatMap Attachment.payload)) = joinMembers joins
  | [], _, _, _, _, _, h, _ => by cases h; rfl
  | ⟨label, rel, kind, level⟩ :: rest, entity, table, n, _, before, h, htaken => by
    obtain ⟨_, inner, later, hinner, hlater, rfl⟩ := attachments_cons_eq_ok.1 h
    have htaken' : TakenBefore (n + level.aliasCount + 2) (before ++ [(tableAlias (n + level.aliasCount + 1),
        (folded inner (tableAlias (n + level.aliasCount)) level.output level.limit level.offset).shapes)]) :=
      takenBefore_concat htaken (by omega) (by omega) _
    have hrest := objectMembers_attachments rest hlater htaken'
    rw [List.append_assoc, List.singleton_append] at hrest
    have hcolumn := column_of_takenBefore htaken (show n ≤ n + level.aliasCount + 1 by omega)
      (folded inner (tableAlias (n + level.aliasCount)) level.output level.limit level.offset).shapes
      (joinsShapes (later.map Attachment.join)) arrayColumn
    rw [List.flatMap_cons, argumentShapes_append, joinMembers, ← hrest]
    refine objectMembers_attachment (fun houtput => hcolumn.trans ?_) _
    have hfolded := columnShape?_folded (columnShape?_select level hinner houtput)
      (tableAlias (n + level.aliasCount)) level.limit level.offset
    rw [← houtput] at hfolded
    exact congrArg (Option.getD · .scalar) hfolded

end

/-! ## Queries -/

/-- The document of a query lists the payloads of its rows. -/
theorem columnShape?_documentSelect {inner : Select} {element : Shape}
    (h : inner.columnShape? payloadColumn = some element) (rows : String) :
    (documentSelect inner rows).columnShape? resultColumn = some (.array element) := by
  show some (Shape.array (SourceShapes.column [(rows, inner.shapes)] rows payloadColumn)) = _
  rw [column_of_derived h]

theorem shape_of_compile {r : Registry} {e : Entity} {t : ActionTree} {q : Query} (hroot : t.select.isOutput = true)
    (h : t.compile r e = .ok q) :
    ∃ object, t.shown.shape? r e = some object ∧ q.select.columnShape? resultColumn = some (.array object) := by
  obtain ⟨p, hp, hq⟩ := compile_eq_ok.1 h
  obtain ⟨inner, hinner, rfl⟩ := PlannedLevel.query_eq_ok.1 hq
  have hobject := shape_of_plan t.route hp
  rw [shown_route] at hobject
  have hpayload := columnShape?_select p hinner ((output_of_plan hp).trans hroot)
  exact ⟨p.shape, hobject, columnShape?_documentSelect hpayload _⟩

/-- **The selectors alone decide the shape of the document.** If the root of a tree shows fields, the document of its
query is an array of what the selectors of the tree ask for; and trees that show the same have documents of one shape,
whatever their filters, orders, limits and offsets are. -/
theorem shape_compile {r : Registry} {e : Entity} {t : ActionTree} {q : Query} (hroot : t.select.isOutput = true)
    (h : t.compile r e = .ok q) :
    (∃ object, t.shown.shape? r e = some object ∧ q.select.columnShape? resultColumn = some (.array object)) ∧
      ∀ (t' : ActionTree) (q' : Query), t'.select.isOutput = true → t'.shown = t.shown → t'.compile r e = .ok q' →
        q'.select.columnShape? resultColumn = q.select.columnShape? resultColumn := by
  obtain ⟨object, hobject, hq⟩ := shape_of_compile hroot h
  refine ⟨⟨object, hobject, hq⟩, fun t' q' hroot' hsame h' => ?_⟩
  obtain ⟨object', hobject', hq'⟩ := shape_of_compile hroot' h'
  rw [hsame, hobject] at hobject'
  cases hobject'
  rw [hq', hq]

/-- Tasks with a certain step, each with one step of its own and the task of that step; the steps are joined twice. -/
def tasksWithOneStep : ActionTree :=
  { ActionTree.empty with
    select := .fields [.field "label", .field "id", .field "label"]
    filters := [⟨⟨["steps", "task"], "label"⟩, .like, .string "a%"⟩]
    relations := [("steps", { ActionTree.empty with
      name := some "steps"
      select := .fields [.wildcard, .exclude "id"]
      limit := some 1
      relations := [("task", { ActionTree.empty with name := some "task", select := .fields [.field "id"] })] })] }

/-- The same without the filter and the limit. -/
def tasksWithSteps : ActionTree :=
  { ActionTree.empty with
    select := .fields [.field "label", .field "id", .field "label"]
    relations := [("steps", { ActionTree.empty with
      name := some "steps"
      select := .fields [.wildcard, .exclude "id"]
      sort := some ⟨"label", .ascending⟩
      relations := [("task", { ActionTree.empty with name := some "task", select := .fields [.field "id"] })] })] }

theorem shape_compile_steps : tasksWithOneStep.select.isOutput = true ∧
    ∃ q q', tasksWithOneStep.compile taskRegistry taskEntity = .ok q ∧
      tasksWithSteps.compile taskRegistry taskEntity = .ok q' ∧
      q'.select.columnShape? resultColumn = q.select.columnShape? resultColumn ∧
      q.select.columnShape? resultColumn = some (.array (.object [("label", .scalar), ("id", .scalar),
        ("steps", .array (.object [("label", .scalar), ("task", .object [("id", .scalar)])]))])) := by
  obtain ⟨q, hq⟩ : ∃ q, tasksWithOneStep.compile taskRegistry taskEntity = .ok q := ⟨_, rfl⟩
  obtain ⟨q', hq'⟩ : ∃ q', tasksWithSteps.compile taskRegistry taskEntity = .ok q' := ⟨_, rfl⟩
  obtain ⟨⟨object, hobject, hdocument⟩, hsame⟩ := shape_compile rfl hq
  cases hobject
  exact ⟨rfl, q, q', hq, hq', hsame tasksWithSteps q' rfl rfl hq', hdocument⟩

end TreeQuery
