import TreeQuery.Proofs.Everywhere
import TreeQuery.Proofs.PushDown

/-!
# Laws of merging

Merging levels is associative (`merge_assoc`), with the order of selectors, filters and relations kept, if in what is
merged into another level every relation is filed once and under the name of its level (`WellFiled`). All trees that are
built are of this kind (`wellFiled_ofLevel`).

- What grows by entries that are not there yet, selectors and filters alike, grows in the same way whether the entries
  come one by one or as a list that has grown in this way itself (`foldl_addUnless`).
- Relations may be merged one by one: the first one takes what the others have under its name, and the rest of them take
  what is left (`mergeRelations_cons_left`). Under a name, merged relations have the merged levels
  (`find?_mergeRelations`), which leaves the law for levels one step further down.
-/

namespace TreeQuery

/-! ## Growing lists -/

section Growing

variable {α : Type} {counts : α → α → Bool}

/-- A list with one more entry at its end, unless it has one that the entry counts as. -/
def addUnless (counts : α → α → Bool) (list : List α) (entry : α) : List α :=
  if list.any (counts entry) then list else list ++ [entry]

theorem addUnless_eq_addFilter : addUnless Filter.same = addFilter := rfl

theorem addUnless_eq_addNew [DecidableEq α] : addUnless (fun x y : α => decide (x = y)) = addNew := by
  funext list entry
  have hmem : (list.any fun x => decide (entry = x)) = true ↔ entry ∈ list := by simp
  simp only [addUnless, addNew, hmem]

theorem any_addUnless (htrans : ∀ x y z, counts x y = true → counts y z = true → counts x z = true)
    {list : List α} {x y : α} (h : list.any (counts x) = true ∨ counts x y = true) :
    (addUnless counts list y).any (counts x) = true := by
  unfold addUnless
  split
  · rename_i hy
    rcases h with h | h
    · exact h
    · obtain ⟨z, hz, hyz⟩ := List.any_eq_true.1 hy
      exact List.any_eq_true.2 ⟨z, hz, htrans x y z h hyz⟩
  · rw [List.any_append, List.any_cons, List.any_nil, Bool.or_false, Bool.or_eq_true]
    exact h

theorem any_foldl_addUnless (htrans : ∀ x y z, counts x y = true → counts y z = true → counts x z = true) {x : α}
    {theirs mine : List α} (h : mine.any (counts x) = true ∨ theirs.any (counts x) = true) :
    (theirs.foldl (addUnless counts) mine).any (counts x) = true := by
  induction theirs generalizing mine with
  | nil => exact h.resolve_right nofun
  | cons y theirs ih =>
    rw [List.any_cons, Bool.or_eq_true, ← or_assoc] at h
    exact ih (h.imp_left (any_addUnless htrans))

/-- Entries may be added one by one, or as a list that they have been added to. -/
theorem foldl_addUnless (htrans : ∀ x y z, counts x y = true → counts y z = true → counts x z = true)
    (mine theirs more : List α) :
    (more.foldl (addUnless counts) theirs).foldl (addUnless counts) mine =
      more.foldl (addUnless counts) (theirs.foldl (addUnless counts) mine) := by
  have hone (theirs : List α) (x : α) : (addUnless counts theirs x).foldl (addUnless counts) mine =
      addUnless counts (theirs.foldl (addUnless counts) mine) x := by
    by_cases hx : theirs.any (counts x) = true
    · rw [addUnless, if_pos hx, addUnless, if_pos (any_foldl_addUnless htrans (.inr hx))]
    · rw [addUnless, if_neg hx, List.foldl_append, List.foldl_cons, List.foldl_nil]
  induction more generalizing theirs with
  | nil => rfl
  | cons x more ih => rw [List.foldl_cons, List.foldl_cons, ih, hone]

end Growing

theorem foldl_addFilter (mine theirs more : List Filter) :
    (more.foldl addFilter theirs).foldl addFilter mine = more.foldl addFilter (theirs.foldl addFilter mine) := by
  rw [← addUnless_eq_addFilter]
  exact @foldl_addUnless Filter Filter.same (fun _ _ _ => Filter.same_trans) mine theirs more

theorem foldl_foldl_addNew {α : Type} [DecidableEq α] (mine theirs more : List α) :
    (more.foldl addNew theirs).foldl addNew mine = more.foldl addNew (theirs.foldl addNew mine) := by
  have htrans : ∀ x y z : α, decide (x = y) = true → decide (y = z) = true → decide (x = z) = true := by
    intro x y z hxy hyz
    rw [decide_eq_true_eq] at hxy hyz ⊢
    exact hxy.trans hyz
  rw [← addUnless_eq_addNew]
  exact foldl_addUnless htrans mine theirs more

theorem Selection.merge_assoc (a b c : Selection) : (a.merge b).merge c = a.merge (b.merge c) := by
  cases c with
  | unselected => cases b <;> rfl
  | fields theirs =>
    cases b with
    | unselected => cases a <;> rfl
    | fields mine =>
      cases a with
      | unselected => rfl
      | fields first => exact congrArg Selection.fields (foldl_foldl_addNew first mine theirs).symm

/-! ## Keyed lists -/

namespace Keyed

variable {α : Type}

theorem find?_eq_none {key : String} {list : List (String × α)} : find? key list = none ↔ key ∉ keys list := by
  induction list with
  | nil => exact iff_of_true rfl List.not_mem_nil
  | cons p rest ih =>
    obtain ⟨k, v⟩ := p
    by_cases hk : k = key
    · subst hk
      simp [find?, keys]
    · rw [find?, if_neg hk, ih]
      unfold keys
      rw [List.map_cons, List.mem_cons, not_or]
      exact ⟨fun h => ⟨Ne.symm hk, h⟩, fun h => h.2⟩

theorem mem_of_mem_erase {key : String} {list : List (String × α)} {p : String × α} (h : p ∈ erase key list) :
    p ∈ list := (List.mem_filter.1 h).1

theorem erase_cons_self (key : String) (value : α) (list : List (String × α)) :
    erase key ((key, value) :: list) = erase key list := by simp [erase]

theorem erase_cons_of_ne {key key' : String} (h : key' ≠ key) (value : α) (list : List (String × α)) :
    erase key ((key', value) :: list) = (key', value) :: erase key list := by simp [erase, h]

theorem erase_of_not_mem {key : String} {list : List (String × α)} (h : key ∉ keys list) : erase key list = list := by
  refine List.filter_eq_self.2 fun p hp => bne_iff_ne.2 fun he => h ?_
  rw [← he]
  exact List.mem_map_of_mem hp

theorem keys_erase_sublist (key : String) (list : List (String × α)) : (keys (erase key list)).Sublist (keys list) :=
  (List.filter_sublist).map _

/-- What is erased does not depend on what it was changed to. -/
theorem erase_alter_self (key : String) (f : Option α → α) (list : List (String × α)) :
    erase key (alter key f list) = erase key list := by
  induction list with
  | nil => rw [alter, erase_cons_self]
  | cons p rest ih =>
    obtain ⟨k, v⟩ := p
    by_cases h : k = key
    · subst h
      rw [alter, if_pos rfl, erase_cons_self, erase_cons_self]
    · rw [alter, if_neg h, erase_cons_of_ne h, erase_cons_of_ne h, ih]

theorem erase_alter_of_ne {key key' : String} (h : key' ≠ key) (f : Option α → α) (list : List (String × α)) :
    erase key (alter key' f list) = alter key' f (erase key list) := by
  induction list with
  | nil => rw [alter, erase_cons_of_ne h]; rfl
  | cons p rest ih =>
    obtain ⟨k, v⟩ := p
    by_cases hk' : k = key'
    · subst hk'
      rw [alter, if_pos rfl, erase_cons_of_ne h, erase_cons_of_ne h, alter, if_pos rfl]
    · rw [alter, if_neg hk']
      by_cases hk : k = key
      · subst hk
        rw [erase_cons_self, erase_cons_self, ih]
      · rw [erase_cons_of_ne hk, erase_cons_of_ne hk, alter, if_neg hk', ih]

end Keyed

/-! ## Relations -/

namespace ActionTree

/-- The name that a level is filed under. -/
def key (t : ActionTree) : String := t.name.getD ""

/-- Whether all relations of a list are filed under the names of their levels, and once. -/
structure Filed (relations : List (String × ActionTree)) : Prop where
  differ : (Keyed.keys relations).Nodup
  named : ∀ p ∈ relations, p.2.key = p.1

/-- Whether the relations of a level are filed under the names of their levels, and once. -/
def WellFiled (t : ActionTree) : Prop := Filed t.relations

theorem filed_nil : Filed [] := ⟨List.nodup_nil, nofun⟩

theorem filed_singleton (t : ActionTree) : Filed [(t.key, t)] :=
  ⟨List.nodup_cons.2 ⟨List.not_mem_nil, List.nodup_nil⟩, fun _ hp => by cases List.mem_singleton.1 hp; rfl⟩

theorem Filed.tail {p : String × ActionTree} {rest : List (String × ActionTree)} (h : Filed (p :: rest)) :
    Filed rest := ⟨(List.nodup_cons.1 h.differ).2, fun q hq => h.named q (List.mem_cons_of_mem _ hq)⟩

theorem merge_eq (mine theirs : ActionTree) : mine.merge theirs =
    { name := mine.name
      select := mine.select.merge theirs.select
      filters := theirs.filters.foldl TreeQuery.addFilter mine.filters
      sort := theirs.sort.or mine.sort
      limit := theirs.limit.or mine.limit
      offset := theirs.offset.or mine.offset
      relations := mergeRelations mine.relations theirs.relations } := by
  obtain ⟨_, _, _, _, _, _, _⟩ := theirs
  rw [merge]

theorem graft_eq (t child : ActionTree) :
    t.graft child = { t with relations := mergeRelations t.relations [(child.key, child)] } := by
  rw [mergeRelations_cons, mergeRelations]
  rfl

/-- What is filed under a name with a level merged into it. -/
def mergeInto (child : ActionTree) : Option ActionTree → ActionTree
  | none => child
  | some existing => existing.merge child

theorem mergeRelations_step (mine : List (String × ActionTree)) (name : String) (child : ActionTree)
    (rest : List (String × ActionTree)) : mergeRelations mine ((name, child) :: rest) =
      mergeRelations (Keyed.alter child.key (mergeInto child) mine) rest := by
  rw [mergeRelations]
  refine congrArg (mergeRelations · rest) (congrArg (Keyed.alter child.key · mine) ?_)
  funext found
  cases found <;> rfl

theorem find?_graft_self (t child : ActionTree) : Keyed.find? child.key (t.graft child).relations =
    some (mergeInto child (Keyed.find? child.key t.relations)) := by
  rw [graft_eq, mergeRelations_step, mergeRelations]
  exact Keyed.find?_alter_self _ _ _

theorem find?_graft_of_ne {child : ActionTree} {label : String} (h : label ≠ child.key) (t : ActionTree) :
    Keyed.find? label (t.graft child).relations = Keyed.find? label t.relations := by
  rw [graft_eq, mergeRelations_step, mergeRelations]
  exact Keyed.find?_alter_of_ne h _ _

theorem key_mergeInto {child : ActionTree} {mine : List (String × ActionTree)} (h : ∀ p ∈ mine, p.2.key = p.1) :
    (mergeInto child (Keyed.find? child.key mine)).key = child.key := by
  cases hfound : Keyed.find? child.key mine with
  | none => rfl
  | some existing =>
    have hkey : existing.key = child.key := h _ (Keyed.mem_of_find? hfound)
    rw [mergeInto, merge_eq]
    exact hkey

theorem Filed.alter {mine : List (String × ActionTree)} (h : Filed mine) (child : ActionTree) :
    Filed (Keyed.alter child.key (mergeInto child) mine) := by
  refine ⟨Keyed.nodup_keys_alter h.differ, fun p hp => ?_⟩
  rcases Keyed.mem_alter hp with hp | rfl
  · exact h.named p hp
  · exact key_mergeInto h.named

theorem Filed.mergeRelations {mine : List (String × ActionTree)} (h : Filed mine)
    (theirs : List (String × ActionTree)) : Filed (ActionTree.mergeRelations mine theirs) := by
  induction theirs generalizing mine with
  | nil => rw [ActionTree.mergeRelations]; exact h
  | cons p rest ih =>
    rw [mergeRelations_step]
    exact ih (h.alter p.2)

/-- Under a name, merged relations have the merged levels. -/
theorem find?_mergeRelations {theirs : List (String × ActionTree)} (h : Filed theirs)
    (mine : List (String × ActionTree)) (name : String) :
    Keyed.find? name (mergeRelations mine theirs) =
      Option.merge merge (Keyed.find? name mine) (Keyed.find? name theirs) := by
  induction theirs generalizing mine with
  | nil =>
    rw [mergeRelations, Keyed.find?, Option.merge_none_right]
  | cons p rest ih =>
    obtain ⟨key, child⟩ := p
    have hkey : child.key = key := h.named _ List.mem_cons_self
    rw [mergeRelations_step, ih h.tail, hkey]
    by_cases hname : key = name
    · subst hname
      have hlater : Keyed.find? key rest = none := Keyed.find?_eq_none.2 (List.nodup_cons.1 h.differ).1
      rw [Keyed.find?_alter_self, hlater, Keyed.find?, if_pos rfl]
      cases Keyed.find? key mine <;> rfl
    · rw [Keyed.find?_alter_of_ne (Ne.symm hname), Keyed.find?, if_neg hname]

/-- Relations of different names are listed one after the other. -/
theorem mergeRelations_of_nodup {theirs : List (String × ActionTree)} (hnamed : ∀ p ∈ theirs, p.2.key = p.1)
    {mine : List (String × ActionTree)} (h : (Keyed.keys mine ++ Keyed.keys theirs).Nodup) :
    mergeRelations mine theirs = mine ++ theirs := by
  induction theirs generalizing mine with
  | nil => rw [mergeRelations, List.append_nil]
  | cons p rest ih =>
    obtain ⟨name, child⟩ := p
    have hname : child.key = name := hnamed _ List.mem_cons_self
    have hsplit : Keyed.keys mine ++ Keyed.keys ((name, child) :: rest) =
        Keyed.keys (mine ++ [(name, child)]) ++ Keyed.keys rest := by simp [Keyed.keys]
    have hnew : name ∉ Keyed.keys mine := by
      intro hmem
      obtain ⟨_, _, hapart⟩ := List.nodup_append.1 h
      exact hapart name hmem name List.mem_cons_self rfl
    rw [mergeRelations_step, hname, Keyed.alter_of_not_mem hnew, mergeInto,
      ih (fun q hq => hnamed q (List.mem_cons_of_mem _ hq)) (hsplit ▸ h), List.append_assoc, List.singleton_append]

theorem mergeRelations_nil_left {theirs : List (String × ActionTree)} (h : Filed theirs) :
    mergeRelations [] theirs = theirs := mergeRelations_of_nodup h.named h.differ

/-- Of the relations that others are merged into, the first one takes what they have under its name, and the rest take
what is left. -/
theorem mergeRelations_cons_left {theirs : List (String × ActionTree)} (h : Filed theirs) (name : String)
    (level : ActionTree) (rest : List (String × ActionTree)) : mergeRelations ((name, level) :: rest) theirs =
      (name, (Keyed.find? name theirs).elim level level.merge) :: mergeRelations rest (Keyed.erase name theirs) := by
  induction theirs generalizing level rest with
  | nil => rw [mergeRelations]; rfl
  | cons p theirs ih =>
    obtain ⟨key, child⟩ := p
    have hkey : child.key = key := h.named _ List.mem_cons_self
    rw [mergeRelations_step, hkey, Keyed.alter]
    by_cases hname : name = key
    · subst hname
      have hlater : Keyed.find? name theirs = none := Keyed.find?_eq_none.2 (List.nodup_cons.1 h.differ).1
      rw [if_pos rfl, ih h.tail, hlater, Keyed.find?, if_pos rfl, Keyed.erase_cons_self]
      rfl
    · rw [if_neg hname, ih h.tail, Keyed.find?, if_neg (Ne.symm hname), Keyed.erase_cons_of_ne (Ne.symm hname),
        mergeRelations_step, hkey]

theorem Filed.erase {relations : List (String × ActionTree)} (h : Filed relations) (name : String) :
    Filed (Keyed.erase name relations) :=
  ⟨h.differ.sublist (Keyed.keys_erase_sublist name relations), fun p hp => h.named p (Keyed.mem_of_mem_erase hp)⟩

theorem erase_mergeRelations {theirs : List (String × ActionTree)} (h : ∀ p ∈ theirs, p.2.key = p.1) (name : String)
    (mine : List (String × ActionTree)) : Keyed.erase name (mergeRelations mine theirs) =
      mergeRelations (Keyed.erase name mine) (Keyed.erase name theirs) := by
  induction theirs generalizing mine with
  | nil =>
    have hnil : Keyed.erase name ([] : List (String × ActionTree)) = [] := rfl
    rw [hnil, mergeRelations, mergeRelations]
  | cons p rest ih =>
    obtain ⟨key, child⟩ := p
    have hkey : child.key = key := h _ List.mem_cons_self
    rw [mergeRelations_step, hkey, ih fun q hq => h q (List.mem_cons_of_mem _ hq)]
    by_cases hname : key = name
    · subst hname
      rw [Keyed.erase_alter_self, Keyed.erase_cons_self]
    · rw [Keyed.erase_alter_of_ne hname, Keyed.erase_cons_of_ne hname, mergeRelations_step, hkey]

/-- Relations may be merged in any grouping if their levels may. -/
theorem mergeRelations_assoc (as : List (String × ActionTree)) {bs cs : List (String × ActionTree)} (hbs : Filed bs)
    (hcs : Filed cs)
    (hassoc : ∀ p ∈ as, ∀ q ∈ bs, ∀ r ∈ cs, (p.2.merge q.2).merge r.2 = p.2.merge (q.2.merge r.2)) :
    mergeRelations (mergeRelations as bs) cs = mergeRelations as (mergeRelations bs cs) := by
  have hbcs : Filed (mergeRelations bs cs) := hbs.mergeRelations cs
  induction as generalizing bs cs with
  | nil => rw [mergeRelations_nil_left hbs, mergeRelations_nil_left hbcs]
  | cons p as ih =>
    obtain ⟨name, a⟩ := p
    have hrest := ih (hbs.erase name) (hcs.erase name) (fun p hp q hq r hr => hassoc p (List.mem_cons_of_mem _ hp) q
      (Keyed.mem_of_mem_erase hq) r (Keyed.mem_of_mem_erase hr)) ((hbs.erase name).mergeRelations _)
    rw [mergeRelations_cons_left hbs, mergeRelations_cons_left hcs, mergeRelations_cons_left hbcs, hrest,
      erase_mergeRelations hcs.named, find?_mergeRelations hcs]
    cases hb : Keyed.find? name bs with
    | none => rw [Option.merge_none_left]; rfl
    | some b =>
      cases hc : Keyed.find? name cs with
      | none => rw [Option.merge_none_right]; rfl
      | some c =>
        have h := hassoc _ List.mem_cons_self _ (Keyed.mem_of_find? hb) _ (Keyed.mem_of_find? hc)
        exact congrArg (fun level => (name, level) :: _) h

/-- Levels may be merged in any grouping. -/
theorem merge_assoc {c : ActionTree} (hc : c.Everywhere WellFiled) (a : ActionTree) {b : ActionTree}
    (hb : b.Everywhere WellFiled) : (a.merge b).merge c = a.merge (b.merge c) := by
  induction hc generalizing a b with
  | @intro c hcs _ ih =>
    have hrelations : mergeRelations (mergeRelations a.relations b.relations) c.relations =
        mergeRelations a.relations (mergeRelations b.relations c.relations) :=
      mergeRelations_assoc a.relations hb.here hcs fun p _ q hq r hr => ih r hr p.2 (hb.inside q hq)
    rw [merge_eq (a.merge b) c, merge_eq a b, merge_eq a (b.merge c), merge_eq b c]
    simp only [Selection.merge_assoc, foldl_addFilter, Option.or_assoc, hrelations]

/-- Grafting two levels of one name is grafting the one with the other merged into it. -/
theorem graft_graft (t : ActionTree) {c d : ActionTree} (hc : c.Everywhere WellFiled) (hd : d.Everywhere WellFiled)
    (hkey : d.key = c.key) : (t.graft c).graft d = t.graft (c.merge d) := by
  have hmerged : (c.merge d).key = c.key := by rw [merge_eq]; rfl
  have hsame : mergeRelations [(c.key, c)] [(d.key, d)] = [((c.merge d).key, c.merge d)] := by
    rw [mergeRelations_step, hkey, Keyed.alter, if_pos rfl, mergeRelations, hmerged]
    rfl
  have hassoc := mergeRelations_assoc t.relations (filed_singleton c) (filed_singleton d) fun p _ q hq r hr => by
    cases List.mem_singleton.1 hq
    cases List.mem_singleton.1 hr
    exact merge_assoc hd p.2 hc
  rw [graft_eq (t.graft c), graft_eq t c, graft_eq t (c.merge d), ← hsame, ← hassoc]

/-- Grafting onto the level that another one is merged with is grafting after merging. -/
theorem merge_graft (a : ActionTree) {t child : ActionTree} (ht : t.Everywhere WellFiled)
    (hchild : child.Everywhere WellFiled) : a.merge (t.graft child) = (a.merge t).graft child := by
  have hassoc := mergeRelations_assoc a.relations ht.here (filed_singleton child) fun p _ q hq r hr => by
    cases List.mem_singleton.1 hr
    exact merge_assoc hchild p.2 (ht.inside q hq)
  rw [graft_eq t, graft_eq (a.merge t), merge_eq, merge_eq, hassoc]

/-! ## Trees that are built -/

theorem wellFiled_keptByBuilding : KeptByBuilding WellFiled where
  empty _ := filed_nil
  addSelector _ _ ht := ht
  modify t m t' hm ht := by
    rw [WellFiled, (modify_keeps hm).2.2]
    exact ht
  graft t child ht _ := by
    rw [graft_eq]
    exact Filed.mergeRelations ht _
  merge mine theirs hmine _ := by
    rw [merge_eq]
    exact Filed.mergeRelations hmine _

/-- In the levels that syntax trees describe, relations are filed once and under the names of their levels. -/
theorem wellFiled_ofLevel {name : Option String} {tree : SyntaxTree} {t : ActionTree} (h : ofLevel name tree = .ok t) :
    t.Everywhere WellFiled := wellFiled_keptByBuilding.ofLevel h

end ActionTree

end TreeQuery
