import TreeQuery.Proofs.Documents

/-!
# Documents and trees

A tree is read back from its JSON text, and whatever text a tree is read from, the paths of its filters can be followed
(`read?_jsonText_and_spells`).

A document of a tree names the paths of filters, at its own level and at those behind its relations
(`Json.NamesPath`). A tree is read only if each of these documents spells a path (`spells_of_namesPath`), which for a
dotted path takes two segments or more (`Json.Spells`); and the paths of the tree are among those that are spelled
(`exists_namesPath`). Following a path takes its segments off one by one (`FieldPath.follow?`).
-/

namespace TreeQuery

/-! ## Following paths -/

/-- Follows the segments of a dotted path: the first of them is a relation, and what is left is its field if it is one
segment, and else is followed on. Nothing can be followed where the segments have run out. -/
def FieldPath.follow? : List String → Option FieldPath
  | [] => none
  | [head, field] => some ⟨[head], field⟩
  | head :: rest => (follow? rest).map fun p => ⟨head :: p.via, p.field⟩

/-- The segments of a dotted path can be followed to its field. -/
theorem FieldPath.follow?_segments (field : String) : ∀ {via : List String}, via ≠ [] →
    follow? (via ++ [field]) = some ⟨via, field⟩
  | [], h => absurd rfl h
  | [_], _ => rfl
  | head :: next :: via, _ => by
    have hlonger : ∀ last, next :: (via ++ [field]) ≠ [last] := by simp
    have hrest : follow? (next :: (via ++ [field])) = some ⟨next :: via, field⟩ :=
      follow?_segments field (List.cons_ne_nil next via)
    show follow? (head :: next :: (via ++ [field])) = _
    rw [follow?.eq_3 head _ hlonger, hrest]
    rfl

example : FieldPath.follow? ["label"] = none ∧ FieldPath.follow? ["steps", "task", "label"] =
    some ⟨["steps", "task"], "label"⟩ := ⟨rfl, rfl⟩

/-- Two segments or more can be followed to their end, and no fewer. -/
theorem FieldPath.follow?_eq_some {segments : List String} {p : FieldPath} :
    follow? segments = some p ↔ 2 ≤ segments.length ∧ p.segments = segments := by
  constructor
  · intro h
    fun_induction follow? segments generalizing p with
    | case1 => cases h
    | case2 head field =>
      cases h
      exact ⟨Nat.le_refl 2, rfl⟩
    | case3 head rest _ ih =>
      obtain ⟨q, hq, rfl⟩ := Option.map_eq_some_iff.1 h
      obtain ⟨hlength, hsegments⟩ := ih hq
      refine ⟨Nat.le_succ_of_le hlength, ?_⟩
      rw [← hsegments]
      rfl
  · obtain ⟨via, field⟩ := p
    rintro ⟨hlength, rfl⟩
    apply follow?_segments
    rintro rfl
    simp [FieldPath.segments] at hlength

/-! ## Paths that documents name -/

namespace Json

/-- A document of a tree names a document as the path of a filter, at some level of the tree. -/
inductive NamesPath : Json → Json → Prop
  | here {j filter path : Json} {name select sort limit offset relations operator value : Option Json}
      {filters : List Json}
      (hlevel : parts? ActionTree.memberNames j =
        some [name, select, some (.array filters), sort, limit, offset, relations])
      (hfilter : filter ∈ filters)
      (hpath : parts? ["field", "operator", "value"] filter = some [some path, operator, value]) : NamesPath j path
  | inside {j path : Json} {name select filters sort limit offset : Option Json} {members : List (Text × Json)}
      {m : Text × Json}
      (hlevel : parts? ActionTree.memberNames j =
        some [name, select, filters, sort, limit, offset, some (.object members)])
      (hmember : m ∈ members) (hchild : NamesPath m.2 path) : NamesPath j path

/-- A document spells a path: a plain one by its field, a dotted one by two segments or more that can be followed. -/
inductive Spells : Json → FieldPath → Prop
  | plain {j beside : Json} {field : String} (hchoice : choice? j = some ("Plain", some beside))
      (hfield : text? beside = some field) : Spells j ⟨[], field⟩
  | dotted {j beside : Json} {segments : List String} {p : FieldPath}
      (hchoice : choice? j = some ("Nested", some beside)) (hsegments : items? text? beside = some segments)
      (hlength : 2 ≤ segments.length) (hfollow : FieldPath.follow? segments = some p) : Spells j p

end Json

open Json (NamesPath Spells)

/-- A document that is read as a path spells the path. -/
theorem FieldPath.spells_of_ofJson? {depth : Nat} {j : Json} {p : FieldPath} (h : ofJson? depth j = some p) :
    Spells j p := by
  obtain ⟨d, _, h⟩ := Option.bind_eq_some_iff.1 h
  obtain ⟨choice, hchoice, h⟩ := Option.bind_eq_some_iff.1 h
  split at h
  · rename_i beside
    obtain ⟨field, hfield, h⟩ := Option.bind_eq_some_iff.1 h
    cases h
    exact .plain hchoice hfield
  · rename_i beside
    obtain ⟨_, _, h⟩ := Option.bind_eq_some_iff.1 h
    obtain ⟨segments, hsegments, h⟩ := Option.bind_eq_some_iff.1 h
    unfold ofDotted? at h
    split at h
    · rename_i hlength
      exact .dotted hchoice hsegments hlength (follow?_eq_some.2 ⟨hlength, segments_of_ofSegments? h⟩)
    · cases h
  · cases h

/-- A document that is read as a filter names the path of the filter. -/
theorem Filter.path_of_ofJson? {depth : Nat} {j : Json} {f : Filter} (h : ofJson? depth j = some f) :
    ∃ path operator value, Json.parts? ["field", "operator", "value"] j = some [some path, operator, value] ∧
      Spells path f.path := by
  obtain ⟨d, _, h⟩ := Option.bind_eq_some_iff.1 h
  obtain ⟨parts, hparts, h⟩ := Option.bind_eq_some_iff.1 h
  split at h
  · rename_i path operator value
    obtain ⟨p, hp, h⟩ := Option.bind_eq_some_iff.1 h
    obtain ⟨_, _, h⟩ := Option.bind_eq_some_iff.1 h
    obtain ⟨_, _, h⟩ := Option.bind_eq_some_iff.1 h
    cases h
    exact ⟨path, _, _, hparts, p.spells_of_ofJson? hp⟩
  · cases h

/-! ## Lists that are read -/

section Lists

variable {α β : Type} {f : α → Option β}

theorem exists_mem_of_mapM_eq_some {xs : List α} {ys : List β} (h : xs.mapM f = some ys) {x : α} (hx : x ∈ xs) :
    ∃ y ∈ ys, f x = some y := by
  induction xs generalizing ys with
  | nil => cases hx
  | cons x' xs ih =>
    rw [List.mapM_cons] at h
    obtain ⟨y', hx', h⟩ := Option.bind_eq_some_iff.1 h
    obtain ⟨ys', hxs, h⟩ := Option.bind_eq_some_iff.1 h
    cases h
    rcases List.mem_cons.1 hx with rfl | hx
    · exact ⟨y', List.mem_cons_self, hx'⟩
    · obtain ⟨y, hy, hf⟩ := ih hxs hx
      exact ⟨y, List.mem_cons_of_mem _ hy, hf⟩

theorem mem_of_mapM_eq_some {xs : List α} {ys : List β} (h : xs.mapM f = some ys) {y : β} (hy : y ∈ ys) :
    ∃ x ∈ xs, f x = some y := by
  induction xs generalizing ys with
  | nil => cases h; cases hy
  | cons x xs ih =>
    rw [List.mapM_cons] at h
    obtain ⟨y', hx, h⟩ := Option.bind_eq_some_iff.1 h
    obtain ⟨ys', hxs, h⟩ := Option.bind_eq_some_iff.1 h
    cases h
    rcases List.mem_cons.1 hy with rfl | hy
    · exact ⟨x, List.mem_cons_self, hx⟩
    · obtain ⟨x', hx', hf⟩ := ih hxs hy
      exact ⟨x', List.mem_cons_of_mem _ hx', hf⟩

theorem listOfJson?_eq_some {g : Nat → Json → Option β} {depth : Nat} {j : Json} {ys : List β}
    (h : listOfJson? g depth j = some ys) : ∃ d items, j = .array items ∧ items.mapM (g d) = some ys := by
  obtain ⟨d, _, h⟩ := Option.bind_eq_some_iff.1 h
  unfold Json.items? at h
  split at h
  · exact ⟨d, _, rfl, h⟩
  · cases h

theorem mem_of_mem_foldl_put {pairs list : List (String × α)} {p : String × α}
    (h : p ∈ pairs.foldl (fun list (k, v) => Keyed.put k v list) list) : p ∈ list ∨ p ∈ pairs := by
  induction pairs generalizing list with
  | nil => exact .inl h
  | cons q rest ih =>
    rcases ih h with h | h
    · rcases Keyed.mem_alter h with h | rfl
      · exact .inl h
      · exact .inr List.mem_cons_self
    · exact .inr (List.mem_cons_of_mem _ h)

/-- What is listed under different keys has been given. -/
theorem mem_of_mem_ofPairs {pairs : List (String × α)} {p : String × α} (h : p ∈ Keyed.ofPairs pairs) : p ∈ pairs :=
  (mem_of_mem_foldl_put h).resolve_left List.not_mem_nil

end Lists

/-! ## Trees that are read -/

namespace ActionTree

/-- In a document that is read as a tree, every document that is named as the path of a filter spells a path. -/
theorem spells_of_namesPath {j path : Json} (hpath : j.NamesPath path) {depth : Nat} {t : ActionTree}
    (h : ofJson? depth j = some t) : ∃ p, Spells path p := by
  induction hpath generalizing depth t with
  | here hlevel hfilter hpath =>
    obtain ⟨d, _, _, filters, _, _, _, _, _, rfl, hparts, _, _, _, hfilters, _⟩ := ofJson?_eq_some.1 h
    cases hlevel.symm.trans hparts
    obtain ⟨_, items, hitems, hread⟩ := listOfJson?_eq_some hfilters
    cases hitems
    obtain ⟨f, _, hf⟩ := exists_mem_of_mapM_eq_some hread hfilter
    obtain ⟨path, _, _, hparts, hspells⟩ := f.path_of_ofJson? hf
    cases hpath.symm.trans hparts
    exact ⟨f.path, hspells⟩
  | inside hlevel hmember _ ih =>
    obtain ⟨d, _, _, _, _, _, _, members, _, rfl, hparts, hread, _⟩ := ofJson?_eq_some.1 h
    cases hlevel.symm.trans hparts
    obtain ⟨p, _, hp⟩ := exists_mem_of_mapM_eq_some hread hmember
    exact ih (memberOfJson?_eq_some.1 hp).2

/-- A tree that is read from a document has only paths that the document names and spells. -/
theorem exists_namesPath {depth : Nat} {j : Json} {t : ActionTree} (h : ofJson? depth j = some t) :
    t.Everywhere fun level => ∀ f ∈ level.filters, ∃ path, j.NamesPath path ∧ Spells path f.path := by
  induction depth using Nat.strongRecOn generalizing j t with
  | ind depth ih =>
    obtain ⟨d, _, _, filters, _, _, _, members, read, rfl, hparts, hread, _, _, hfilters, _, _, _, hpairs⟩ :=
      ofJson?_eq_some.1 h
    refine .intro ?_ ?_
    · intro f hf
      obtain ⟨_, items, rfl, hitems⟩ := listOfJson?_eq_some hfilters
      obtain ⟨filter, hfilter, hreads⟩ := mem_of_mapM_eq_some hitems hf
      obtain ⟨path, _, _, hpath, hspells⟩ := f.path_of_ofJson? hreads
      exact ⟨path, .here hparts hfilter hpath, hspells⟩
    · intro p hp
      rw [← hpairs] at hp
      obtain ⟨m, hm, hmember⟩ := mem_of_mapM_eq_some hread (mem_of_mem_ofPairs hp)
      have hchild := ih d (by omega) (memberOfJson?_eq_some.1 hmember).2
      refine hchild.mono fun level hlevel f hf => ?_
      obtain ⟨path, hpath, hspells⟩ := hlevel f hf
      exact ⟨path, .inside hparts hm hpath, hspells⟩

/-- **Trees are read back from their texts, and every path that is read can be followed.** The text of a tree is read as
the tree, relations in their order, if as many containers may be opened as its document nests; it is asked only that
the relations of a level have different names and that no float is among the values. And of whatever text a tree is
read, every document in it that stands for the path of a filter spells one: a single text, or two segments or more that
can be followed to the end. The tree has no other paths. -/
theorem read?_jsonText_and_spells :
    (∀ (t : ActionTree) (depth : Nat), t.Everywhere KeysDiffer → t.Everywhere Floatless → t.toJson.nesting ≤ depth →
      (Json.read? t.jsonText).bind (ofJson? depth) = some t) ∧
    ∀ (s : String) (depth : Nat) (t : ActionTree), (Json.read? s).bind (ofJson? depth) = some t →
      ∃ j, Json.read? s = some j ∧ (∀ path, j.NamesPath path → ∃ p, Spells path p) ∧
        t.Everywhere fun level => ∀ f ∈ level.filters, ∃ path, j.NamesPath path ∧ Spells path f.path := by
  constructor
  · intro t depth hkeys hvalues hdepth
    have hread : Json.read? t.jsonText = some t.toJson := Json.read?_text (writable_toJson hvalues)
    rw [hread, Option.bind_some]
    exact ofJson?_toJson hkeys hvalues hdepth
  · intro s depth t h
    obtain ⟨j, hj, ht⟩ := Option.bind_eq_some_iff.1 h
    exact ⟨j, hj, fun path hpath => spells_of_namesPath hpath ht, exists_namesPath ht⟩

/-- Tasks with texts that need escapes, the largest counts, nested lists, and a relation that has another name. -/
def tasksInFull : ActionTree where
  name := none
  select := .fields [.field "a\"b\\c\n", .wildcard, .exclude "é\u0001😀"]
  filters := [⟨⟨["steps", "task"], "label"⟩, .oneOf, .list
    [.list [.int (-9223372036854775808), .list []], .date ⟨2024, 2, 29, by decide, by decide, by decide, by decide⟩]⟩]
  sort := some ⟨"label", .descending⟩
  limit := some 18446744073709551615
  offset := some 0
  relations := [("steps", { unselected "other" with filters := [⟨⟨[], ""⟩, .isNull, .int 1⟩] }), ("a", empty)]

theorem read?_jsonText_and_spells_tasks : tasksInFull.Everywhere KeysDiffer ∧ tasksInFull.Everywhere Floatless ∧
    tasksInFull.toJson.nesting ≤ maxJsonDepth ∧
    (Json.read? tasksInFull.jsonText).bind (ofJson? maxJsonDepth) = some tasksInFull ∧
    ∃ j path, Json.read? tasksInFull.jsonText = some j ∧ j.NamesPath path ∧
      Spells path ⟨["steps", "task"], "label"⟩ := by
  have hkeys : tasksInFull.Everywhere KeysDiffer := by
    have hlabels : (Keyed.keys tasksInFull.relations).Nodup := by decide
    refine .intro hlabels fun p hp => ?_
    rcases List.mem_pair.1 hp with rfl | rfl <;> exact .intro List.nodup_nil nofun
  have hvalues : tasksInFull.Everywhere Floatless := by
    refine .intro (fun f hf => ?_) fun p hp => ?_
    · cases List.mem_singleton.1 hf
      rfl
    · rcases List.mem_pair.1 hp with rfl | rfl
      · refine .intro (fun f hf => ?_) nofun
        cases List.mem_singleton.1 hf
        rfl
      · exact .intro nofun nofun
  have hdepth : tasksInFull.toJson.nesting ≤ maxJsonDepth := by decide
  have hread := read?_jsonText_and_spells.1 tasksInFull maxJsonDepth hkeys hvalues hdepth
  obtain ⟨j, hj, _, hpaths⟩ := read?_jsonText_and_spells.2 _ _ _ hread
  obtain ⟨path, hpath, hspells⟩ := hpaths.here _ List.mem_cons_self
  exact ⟨hkeys, hvalues, hdepth, hread, j, path, hj, hpath, hspells⟩

end ActionTree

end TreeQuery
