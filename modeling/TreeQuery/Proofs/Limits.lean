import TreeQuery.Proofs.Building
import TreeQuery.Proofs.Grafting
import TreeQuery.Proofs.JoinKinds
import TreeQuery.Proofs.Nesting
import TreeQuery.Proofs.Parsing

/-!
# What the limits of the reader bound

The reader admits relations that are nested `maxDepth` deep and filters that go through `maxDepth` relations. Handing
filters down nests levels deeper than that, but no further than twice as deep, whatever the relationships of the
registry are (`nesting_le_ofText`).

- A level is planned for each path that a tree mentions, and for no other one (`leads_route_iff`). Such a path leads
  along selected relations to a level, and from there along the path of one of its filters (`ActionTree.Mentions`).
  Filters of several levels may lead through the same relations, but they do not add up: a filter is written at a level
  of the tree, so no path has more than one of them.
- Merging and grafting keep a tree within the limits (`WithinLimits.merge`, `WithinLimits.graft`), and so the tree of an
  admitted derivation is (`withinLimits_ofLevel`).
-/

namespace TreeQuery

open Outcome

namespace ActionTree

variable {t child mine theirs : ActionTree} {head label : String} {path : List String} {depth : Nat}

/-! ## Paths that are mentioned -/

/-- Whether a tree mentions a path of relations: it leads to a level of the tree and ends there, or goes on along the
path of a filter that is written at the level. -/
def Mentions (t : ActionTree) (path : List String) : Prop :=
  ∃ start via level, start ++ via = path ∧ t.levelAt? start = some level ∧
    (via = [] ∨ ∃ f ∈ level.filters, via <+: f.path.via)

theorem exists_mem_pushDown (hkeys : t.KeysDiffer) (h : head ∈ heads t.filters ∨ head ∈ Keyed.keys t.relations) :
    ∃ child, (head, child) ∈ t.pushDown := by
  by_cases hheads : head ∈ heads t.filters
  · exact ⟨_, (mem_pushDown hkeys).2 (.inl ⟨hheads, rfl⟩)⟩
  · obtain ⟨⟨_, child⟩, hchild, rfl⟩ := List.mem_map.1 (h.resolve_left hheads)
    exact ⟨child, (mem_pushDown hkeys).2 (.inr ⟨hheads, hchild⟩)⟩

/-- What is mentioned through a relation, the level behind the relation mentions after filters are handed down to it. -/
theorem Mentions.exists_pushDown (hkeys : t.KeysDiffer) (h : t.Mentions (head :: path)) :
    ∃ child, (head, child) ∈ t.pushDown ∧ child.Mentions path := by
  obtain ⟨start, via, level, hpath, hlevel, hvia⟩ := h
  cases start with
  | nil =>
    -- the whole path is that of a filter of the level
    cases hlevel
    cases hpath
    obtain ⟨f, hf, rest, hfvia⟩ := hvia.resolve_left (List.cons_ne_nil _ _)
    have hhead : f.path.via.head? = some head := by
      rw [← hfvia]
      rfl
    obtain ⟨child, hp⟩ := exists_mem_pushDown hkeys (.inl (mem_heads.2 ⟨f, hf, hhead⟩))
    obtain ⟨g, hg, hgpath⟩ := exists_filter_pushDown hkeys hp hf hhead
    refine ⟨child, hp, [], path, child, rfl, rfl, .inr ⟨g, hg, rest, ?_⟩⟩
    rw [hgpath, FieldPath.descend, ← hfvia]
    rfl
  | cons first start =>
    obtain ⟨rfl, rfl⟩ := List.cons.inj hpath
    have hfirst : first ∈ Keyed.keys t.relations := by
      obtain ⟨child, hfind, _⟩ := Option.bind_eq_some_iff.1 hlevel
      exact List.mem_map_of_mem (Keyed.mem_of_find? hfind)
    obtain ⟨child, hp⟩ := exists_mem_pushDown hkeys (.inr hfirst)
    cases start with
    | nil =>
      refine ⟨child, hp, [], via, child, rfl, rfl, hvia.imp_right ?_⟩
      rintro ⟨f, hf, hprefix⟩
      exact ⟨f, mem_filters_of_levelAt? hkeys hp hlevel hf, hprefix⟩
    | cons next start =>
      rw [← levelAt?_pushDown hkeys hp (List.cons_ne_nil _ _)] at hlevel
      exact ⟨child, hp, next :: start, via, level, rfl, hlevel, hvia⟩

/-- What a level mentions to which filters are handed down, was mentioned through the relation that leads to it. -/
theorem Mentions.of_pushDown (hkeys : t.KeysDiffer) (hp : (head, child) ∈ t.pushDown) (h : child.Mentions path) :
    t.Mentions (head :: path) := by
  obtain ⟨start, via, level, rfl, hlevel, hvia⟩ := h
  cases start with
  | nil =>
    cases hlevel
    rcases hvia with rfl | ⟨f, hf, hprefix⟩
    · -- the path ends behind the relation; if the relation was not selected, a filter goes through it
      rcases (mem_pushDown hkeys).1 hp with ⟨hheads, _⟩ | ⟨_, hchild⟩
      · obtain ⟨f, hf, hhead⟩ := mem_heads.1 hheads
        obtain ⟨rest, hfvia⟩ := List.head?_eq_some_iff.1 hhead
        exact ⟨[], [head], t, rfl, rfl, .inr ⟨f, hf, rest, hfvia.symm⟩⟩
      · refine ⟨[head], [], child, rfl, ?_, .inl rfl⟩
        rw [levelAt?_singleton]
        exact (Keyed.mem_iff_find? hkeys).1 hchild
    · rcases mem_filters_pushDown hkeys hp hf with ⟨level, hlevel, hf⟩ | ⟨g, hg, hhead, rfl⟩
      · exact ⟨[head], via, level, rfl, hlevel, .inr ⟨f, hf, hprefix⟩⟩
      · obtain ⟨rest, hgvia⟩ := List.head?_eq_some_iff.1 hhead
        rw [Filter.descend, FieldPath.descend, hgvia] at hprefix
        refine ⟨[], head :: via, t, rfl, rfl, .inr ⟨g, hg, ?_⟩⟩
        rw [hgvia, List.cons_prefix_cons]
        exact ⟨rfl, hprefix⟩
  | cons next start =>
    rw [levelAt?_pushDown hkeys hp (List.cons_ne_nil _ _)] at hlevel
    exact ⟨head :: next :: start, via, level, rfl, hlevel, hvia⟩

/-- **A level is planned for each path that is mentioned.** -/
theorem leads_route_iff (hkeys : t.Everywhere KeysDiffer) : t.route.Leads path ↔ t.Mentions path := by
  induction path generalizing t with
  | nil => exact iff_of_true (.here _) ⟨[], [], t, rfl, rfl, .inl rfl⟩
  | cons label path ih =>
    rw [RoutedTree.leads_cons, branches_route hkeys.here]
    constructor
    · rintro ⟨b, hb, hlabel, hleads⟩
      obtain ⟨⟨_, child⟩, hp, rfl⟩ := List.mem_map.1 hb
      cases hlabel
      exact ((ih (keysDiffer_pushDown hkeys _ hp)).1 hleads).of_pushDown hkeys.here hp
    · intro hmentions
      obtain ⟨child, hp, hmentions⟩ := hmentions.exists_pushDown hkeys.here
      exact ⟨_, List.mem_map_of_mem hp, rfl, (ih (keysDiffer_pushDown hkeys _ hp)).2 hmentions⟩

/-! ## Trees within the limits -/

/-- Whether a tree is within the limits of the reader when it stands behind `depth` relations. -/
def WithinLimits (depth : Nat) (t : ActionTree) : Prop :=
  ∀ path level, t.levelAt? path = some level →
    depth + path.length ≤ maxDepth ∧ ∀ f ∈ level.filters, f.path.via.length ≤ maxDepth

/-- What is mentioned leads through no more relations than the two limits together admit. -/
theorem WithinLimits.length_of_mentions (h : t.WithinLimits 0) (hpath : t.Mentions path) :
    path.length ≤ 2 * maxDepth := by
  obtain ⟨start, via, level, rfl, hlevel, hvia⟩ := hpath
  obtain ⟨hstart, hfilters⟩ := h start level hlevel
  have hrest : via.length ≤ maxDepth := by
    rcases hvia with rfl | ⟨f, hf, hprefix⟩
    · exact Nat.zero_le _
    · exact Nat.le_trans hprefix.length_le (hfilters f hf)
  rw [List.length_append]
  omega

theorem withinLimits_empty (hdepth : depth ≤ maxDepth) (name : Option String) :
    ({ empty with name } : ActionTree).WithinLimits depth := by
  intro path level hlevel
  cases path with
  | nil =>
    cases hlevel
    exact ⟨hdepth, nofun⟩
  | cons label path => cases hlevel

/-- A level may change in what is neither a relation nor a filter that is too long. -/
theorem WithinLimits.of_relations {t' : ActionTree} (ht : t.WithinLimits depth)
    (hrelations : t'.relations = t.relations) (hfilters : ∀ f ∈ t'.filters, f.path.via.length ≤ maxDepth) :
    t'.WithinLimits depth := by
  intro path level hlevel
  cases path with
  | nil =>
    cases hlevel
    exact ⟨(ht [] t rfl).1, hfilters⟩
  | cons label path =>
    rw [levelAt?_congr hrelations (List.cons_ne_nil _ _)] at hlevel
    exact ht _ level hlevel

theorem WithinLimits.inside (h : t.WithinLimits depth) (hfind : Keyed.find? label t.relations = some child) :
    child.WithinLimits (depth + 1) := by
  intro path level hlevel
  have hpath : t.levelAt? (label :: path) = some level := by
    rw [levelAt?, hfind]
    exact hlevel
  obtain ⟨hdepth, hfilters⟩ := h _ level hpath
  rw [List.length_cons] at hdepth
  exact ⟨by omega, hfilters⟩

theorem WithinLimits.merge (hmine : mine.WithinLimits depth) (htheirs : theirs.WithinLimits depth)
    (hfiled : theirs.Everywhere WellFiled) : (mine.merge theirs).WithinLimits depth := by
  intro path level hlevel
  rw [levelAt?_merge hfiled] at hlevel
  cases hm : mine.levelAt? path with
  | none =>
    rw [hm, Option.merge_none_left] at hlevel
    exact htheirs path level hlevel
  | some m =>
    cases ht : theirs.levelAt? path with
    | none =>
      rw [hm, ht, Option.merge_none_right] at hlevel
      cases hlevel
      exact hmine path level hm
    | some t =>
      rw [hm, ht] at hlevel
      cases hlevel
      refine ⟨(hmine path m hm).1, fun f hf => ?_⟩
      rw [merge_eq] at hf
      rcases mem_or_mem_of_mem_addAll hf with hf | hf
      · exact (hmine path m hm).2 f hf
      · exact (htheirs path t ht).2 f hf

theorem WithinLimits.graft (ht : t.WithinLimits depth) (hchild : child.WithinLimits (depth + 1))
    (hfiled : child.Everywhere WellFiled) : (t.graft child).WithinLimits depth := by
  have hmerged : (mergeInto child (Keyed.find? child.key t.relations)).WithinLimits (depth + 1) := by
    cases hfind : Keyed.find? child.key t.relations with
    | none => exact hchild
    | some existing => exact (ht.inside hfind).merge hchild hfiled
  intro path level hlevel
  cases path with
  | nil =>
    cases hlevel
    exact ht [] t rfl
  | cons label path =>
    by_cases hlabel : label = child.key
    · rw [levelAt?, hlabel, find?_graft_self] at hlevel
      obtain ⟨hdepth, hfilters⟩ := hmerged path level hlevel
      rw [List.length_cons]
      exact ⟨by omega, hfilters⟩
    · rw [levelAt?, find?_graft_of_ne hlabel] at hlevel
      exact ht (label :: path) level hlevel

/-! ## Trees of derivations -/

open Grammar

theorem WithinLimits.modify {c : Clause} (ht : t.WithinLimits depth) (hc : c.Fits) {t' : ActionTree}
    (h : t.modify c.modifier = .ok t') : t'.WithinLimits depth := by
  have hfilters := (ht [] t rfl).2
  refine ht.of_relations (modify_keeps h).2.2 fun f hf => ?_
  cases c with
  | filter first more op operand =>
    rw [Clause.modifier, ActionTree.modify] at h
    split at h
    · rename_i path hpath
      cases h
      have hadded : f ∈ addAll t.filters [⟨path, op, operand.value⟩] := hf
      rcases mem_or_mem_of_mem_addAll hadded with hf | hf
      · exact hfilters f hf
      · cases List.mem_singleton.1 hf
        have hlength := congrArg List.length (FieldPath.segments_of_ofSegments? hpath)
        rw [FieldPath.segments, List.length_append] at hlength
        rw [Nat.succ.inj hlength]
        exact hc
    · cases h
  | order _ _ =>
    cases h
    exact hfilters f hf
  | count what _ =>
    cases what <;> cases h <;> exact hfilters f hf

theorem WithinLimits.modifyAll {clauses : List Clause} (ht : t.WithinLimits depth) (hclauses : ∀ c ∈ clauses, c.Fits)
    {t' : ActionTree} (h : t.modifyAll (clauses.map Clause.modifier) = .ok t') : t'.WithinLimits depth := by
  induction clauses generalizing t with
  | nil =>
    cases h
    exact ht
  | cons c clauses ih =>
    obtain ⟨hc, hclauses⟩ := List.forall_mem_cons.1 hclauses
    obtain ⟨u, hu, h⟩ := bind_eq_ok.1 h
    exact ih (ht.modify hc hu) hclauses h

mutual

/-- The tree of an admitted derivation is within the limits. -/
theorem withinLimits_ofLevel : ∀ {derived : Level} {depth : Nat} {name : Option String} {t : ActionTree},
    depth ≤ maxDepth → derived.Fits depth → ofLevel name derived.tree = .ok t → t.WithinLimits depth
  | ⟨first, more, clauses⟩, depth, name, t, hdepth, ⟨hfirst, hmore, hclauses⟩, h => by
    rw [Level.tree, ofLevel] at h
    obtain ⟨u, hfields, hmodify⟩ := bind_eq_ok.1 h
    rw [← List.singleton_append, addFields_append] at hfields
    obtain ⟨v, hv, hu⟩ := bind_eq_ok.1 hfields
    have hstart := withinLimits_addField (withinLimits_empty hdepth name) hfirst hv
    exact (withinLimits_addFields hstart hmore hu).modifyAll hclauses hmodify

theorem withinLimits_addField : ∀ {field : FieldEntry Level} {depth : Nat} {t t' : ActionTree}, t.WithinLimits depth →
    FieldFits depth field → t.addFields [fieldTree field] = .ok t' → t'.WithinLimits depth
  | .name _, _, t, _, ht, _, h | .excluded _, _, t, _, ht, _, h | .wildcard, _, t, _, ht, _, h => by
    rw [fieldTree, addFields] at h
    cases h
    exact ht.of_relations rfl (ht [] t rfl).2
  | .relation label level, depth, t, t', ht, ⟨hdepth, hlevel⟩, h => by
    rw [fieldTree, addFields] at h
    obtain ⟨child, hchild, h⟩ := bind_eq_ok.1 h
    cases h
    exact ht.graft (withinLimits_ofLevel hdepth hlevel hchild) (wellFiled_ofLevel hchild)

theorem withinLimits_addFields : ∀ {fields : List (FieldEntry Level)} {depth : Nat} {t t' : ActionTree},
    t.WithinLimits depth → FieldsFit depth fields → t.addFields (fieldTrees fields) = .ok t' → t'.WithinLimits depth
  | [], _, _, _, ht, _, h => by
    cases h
    exact ht
  | field :: rest, depth, t, t', ht, ⟨hfield, hrest⟩, h => by
    rw [fieldTrees, ← List.singleton_append, addFields_append] at h
    obtain ⟨u, hu, h⟩ := bind_eq_ok.1 h
    exact withinLimits_addFields (withinLimits_addField ht hfield hu) hrest h

end

/-- The tree of a text is within the limits. -/
theorem withinLimits_ofText {text : String} (h : ofText text = .ok t) : t.WithinLimits 0 := by
  obtain ⟨tree, htree, h⟩ := bind_eq_ok.1 h
  obtain ⟨lexemes, _, htree⟩ := bind_eq_ok.1 htree
  obtain ⟨root, hfits, _, rfl⟩ := SyntaxTree.ofLexemes_eq_ok.1 htree
  exact withinLimits_ofLevel (Nat.zero_le _) hfits h

end ActionTree

/-! ## Texts -/

/-- **The limits of the reader bound all that comes after it.** However relationships lead back to each other, no level
of the routed tree of a text is behind more relations than the two limits together admit, and so planning goes no deeper
even where it fails. Joins that stand behind one another in the plan, copies that are left for their conditions among
them, lie on the paths that the tree mentions, and those of the compiled select are the same ones. No more of them stand
in a row than that, and the height of the select is bounded with them. -/
theorem nesting_le_ofText {text : String} {t : ActionTree} (h : ActionTree.ofText text = .ok t) (r : Registry)
    (e : Entity) :
    (∀ path, t.route.Leads path → path.length ≤ 2 * maxDepth) ∧
      ∀ p, t.plan r e = .ok p →
        (∀ path, t.Mentions path ↔ ∃ chain, p.Chain chain ∧ chain.map JoinedLevel.label = path) ∧
        (∀ chain, p.Chain chain → chain.length ≤ 2 * maxDepth) ∧
        ∀ q, p.query = .ok q →
          (∀ kinds, (∃ chain, p.Chain chain ∧ chain.map JoinedLevel.join = kinds) ↔
            ∃ joins, q.select.Chain joins ∧ joins.map Sql.Join.kind = kinds) ∧
          (∀ joins, q.select.Chain joins → joins.length ≤ 2 * maxDepth) ∧ q.select.height ≤ 4 * maxDepth + 6 := by
  have hmentions (path : List String) : t.route.Leads path ↔ t.Mentions path :=
    ActionTree.leads_route_iff (ActionTree.keysDiffer_ofText h)
  have hroute (path : List String) (hleads : t.route.Leads path) : path.length ≤ 2 * maxDepth :=
    (ActionTree.withinLimits_ofText h).length_of_mentions ((hmentions path).1 hleads)
  refine ⟨hroute, fun p hp => ?_⟩
  have hplan (chain : List (JoinedLevel PlannedLevel)) (hchain : p.Chain chain) : chain.length ≤ 2 * maxDepth := by
    rw [← List.length_map JoinedLevel.label]
    exact hroute _ ((exists_chain_iff_leads hp).1 ⟨chain, hchain, rfl⟩)
  refine ⟨fun path => (hmentions path).symm.trans (exists_chain_iff_leads hp).symm, hplan, fun q hq => ?_⟩
  refine ⟨fun kinds => (exists_chain_query_iff hq).symm, fun joins hjoins => ?_, height_query _ hplan hq⟩
  obtain ⟨chain, hchain, hkinds⟩ := (exists_chain_query_iff hq).1 ⟨joins, hjoins, rfl⟩
  have hlength := congrArg List.length hkinds
  rw [List.length_map, List.length_map] at hlength
  rw [← hlength]
  exact hplan chain hchain

/-- A filter on tasks may go on behind the steps that are selected, and back to them. -/
theorem nesting_le_ofText_steps : ∃ t p q,
    ActionTree.ofText "q=(id,steps(label).limit(1)).filter(steps.task.steps.id=2)" = .ok t ∧
      t.plan taskRegistry taskEntity = .ok p ∧ p.query = .ok q ∧ t.Mentions ["steps", "task", "steps"] ∧
      (∃ gate chain, p.Chain (gate :: chain) ∧ gate.level.output = false ∧
        (gate :: chain).map JoinedLevel.label = ["steps", "task", "steps"]) ∧
      (∃ joins, q.select.Chain joins ∧ joins.map Sql.Join.kind = [.inner, .inner, .inner]) ∧
      (∀ chain, p.Chain chain → chain.length ≤ 2 * maxDepth) ∧
      (∀ joins, q.select.Chain joins → joins.length ≤ 2 * maxDepth) ∧ q.select.height ≤ 4 * maxDepth + 6 := by
  obtain ⟨t, ht, p, hp, ⟨gate, chain, hchain, hgate, hlabels, hkinds⟩, q, hq⟩ :
      ∃ t, ActionTree.ofText "q=(id,steps(label).limit(1)).filter(steps.task.steps.id=2)" = .ok t ∧
        ∃ p, t.plan taskRegistry taskEntity = .ok p ∧
          (∃ gate chain, p.Chain (gate :: chain) ∧ gate.level.output = false ∧
            (gate :: chain).map JoinedLevel.label = ["steps", "task", "steps"] ∧
            (gate :: chain).map JoinedLevel.join = [.inner, .inner, .inner]) ∧ ∃ q, p.query = .ok q :=
    ⟨{ ActionTree.empty with
      select := .fields [.field "id"]
      filters := [⟨⟨["steps", "task", "steps"], "id"⟩, .compare .equal, .int 2⟩]
      relations := [("steps", { ActionTree.empty with
        name := some "steps", select := .fields [.field "label"], limit := some 1 })] },
      ActionTree.ofText_eq_ok.2 ⟨⟨[.name "id", .relation "steps" ⟨[.name "label"], [.limit 1]⟩],
        [.filter ["steps", "task", "steps", "id"] (.compare .equal) (.int 2)]⟩, rfl, rfl⟩, _, rfl,
      ⟨_, [_, _], .cons (.head _) (.cons (.head _) (.cons (.head _) (.nil _))), rfl, rfl, rfl⟩, _, rfl⟩
  obtain ⟨_, hplan⟩ := nesting_le_ofText ht taskRegistry taskEntity
  obtain ⟨hmentions, hchains, hquery⟩ := hplan p hp
  obtain ⟨hjoins, hrest⟩ := hquery q hq
  exact ⟨t, p, q, ht, hp, hq, (hmentions _).2 ⟨_, hchain, hlabels⟩, ⟨gate, chain, hchain, hgate, hlabels⟩,
    (hjoins _).1 ⟨_, hchain, hkinds⟩, hchains, hrest⟩

end TreeQuery
