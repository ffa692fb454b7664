import TreeQuery.ActionTree.Build
import TreeQuery.Proofs.Outcome

/-!
# Properties of all levels

A property of a tree that is meant level by level holds *everywhere* if it holds of every level (`Everywhere`). What
the steps of building keep at one level holds everywhere in the tree of a text (`KeptByBuilding.ofText`): in such a
tree the relations of a level have different names, and every level is there for its output (`keysDiffer_ofText`,
`isOutput_ofText`).

The levels of a tree are told apart by their paths: `levelAt?` is the one that a path of relations leads to.
-/

namespace TreeQuery.ActionTree

open Outcome

/-- A property of a level and of all levels that its relations lead to. -/
inductive Everywhere (P : ActionTree → Prop) : ActionTree → Prop
  | intro {t : ActionTree} (here : P t) (inside : ∀ p ∈ t.relations, Everywhere P p.2) : Everywhere P t

namespace Everywhere

variable {P Q : ActionTree → Prop} {t : ActionTree}

theorem here (h : t.Everywhere P) : P t := by
  cases h with
  | intro here _ => exact here

theorem inside (h : t.Everywhere P) : ∀ p ∈ t.relations, p.2.Everywhere P := by
  cases h with
  | intro _ inside => exact inside

theorem mono (h : t.Everywhere P) (hPQ : ∀ t, P t → Q t) : t.Everywhere Q := by
  induction h with
  | intro here _ ih => exact .intro (hPQ _ here) ih

end Everywhere

/-- No two relations of a level have one name. -/
def KeysDiffer (t : ActionTree) : Prop := (Keyed.keys t.relations).Nodup

/-! ## Paths -/

/-- The level that a path of relations leads to. -/
def levelAt? : List String → ActionTree → Option ActionTree
  | [], t => some t
  | label :: path, t => (Keyed.find? label t.relations).bind (levelAt? path)

theorem levelAt?_singleton (label : String) (t : ActionTree) : t.levelAt? [label] = Keyed.find? label t.relations :=
  Option.bind_fun_some _

theorem levelAt?_append (path path' : List String) (t : ActionTree) :
    t.levelAt? (path ++ path') = (t.levelAt? path).bind (levelAt? path') := by
  induction path generalizing t with
  | nil => rfl
  | cons label path ih =>
    rw [List.cons_append, levelAt?, levelAt?, Option.bind_assoc]
    exact congrArg _ (funext ih)

/-- The levels behind a level depend on its relations alone. -/
theorem levelAt?_congr {t u : ActionTree} (h : t.relations = u.relations) {path : List String} (hpath : path ≠ []) :
    t.levelAt? path = u.levelAt? path := by
  cases path with
  | nil => exact absurd rfl hpath
  | cons label path => rw [levelAt?, levelAt?, h]

/-! ## Merging -/

section Merging

variable {P : ActionTree → Prop}

mutual

/-- What merging two levels keeps, merging two trees keeps everywhere. -/
theorem Everywhere.merge (hmerge : ∀ mine theirs, P mine → P theirs → P (mine.merge theirs)) :
    ∀ {theirs mine : ActionTree}, mine.Everywhere P → theirs.Everywhere P → (mine.merge theirs).Everywhere P
  | ⟨_, _, _, _, _, _, relations⟩, mine, hmine, htheirs => by
    refine .intro (hmerge _ _ hmine.here htheirs.here) ?_
    rw [ActionTree.merge]
    exact everywhere_mergeRelations hmerge hmine.inside htheirs.inside

theorem everywhere_mergeRelations (hmerge : ∀ mine theirs, P mine → P theirs → P (mine.merge theirs)) :
    ∀ {theirs mine : List (String × ActionTree)}, (∀ p ∈ mine, p.2.Everywhere P) →
      (∀ p ∈ theirs, p.2.Everywhere P) → ∀ p ∈ mergeRelations mine theirs, p.2.Everywhere P
  | [], _, hmine, _ => by rw [mergeRelations]; exact hmine
  | (_, child) :: rest, mine, hmine, htheirs => by
    have hchild : child.Everywhere P := htheirs _ List.mem_cons_self
    rw [mergeRelations]
    refine everywhere_mergeRelations hmerge (fun p hp => ?_) fun p hp => htheirs p (List.mem_cons_of_mem _ hp)
    rcases Keyed.mem_alter hp with hp | rfl
    · exact hmine p hp
    · cases hfind : Keyed.find? (child.name.getD "") mine with
      | none => exact hchild
      | some existing => exact Everywhere.merge hmerge (hmine _ (Keyed.mem_of_find? hfind)) hchild

end

theorem Everywhere.graft (hmerge : ∀ mine theirs, P mine → P theirs → P (mine.merge theirs)) {t child : ActionTree}
    (hhere : P (t.graft child)) (ht : t.Everywhere P) (hchild : child.Everywhere P) :
    (t.graft child).Everywhere P := by
  refine .intro hhere fun p hp => ?_
  have hp : p ∈ mergeRelations t.relations [(child.name.getD "", child)] := by
    rw [mergeRelations_cons, mergeRelations]
    exact hp
  refine everywhere_mergeRelations hmerge ht.inside (fun q hq => ?_) p hp
  cases List.mem_singleton.1 hq
  exact hchild

theorem nodup_keys_mergeRelations {mine : List (String × ActionTree)} (hmine : (Keyed.keys mine).Nodup)
    (theirs : List (String × ActionTree)) : (Keyed.keys (mergeRelations mine theirs)).Nodup := by
  induction theirs generalizing mine with
  | nil => rw [mergeRelations]; exact hmine
  | cons p rest ih =>
    obtain ⟨_, child⟩ := p
    rw [mergeRelations]
    exact ih (Keyed.nodup_keys_alter hmine)

theorem keysDiffer_merge {mine : ActionTree} (hmine : mine.KeysDiffer) (theirs : ActionTree) :
    (mine.merge theirs).KeysDiffer := by
  obtain ⟨_, _, _, _, _, _, relations⟩ := theirs
  rw [ActionTree.merge]
  exact nodup_keys_mergeRelations hmine relations

theorem isOutput_merge {mine : ActionTree} (hmine : mine.select.isOutput = true) (theirs : ActionTree) :
    (mine.merge theirs).select.isOutput = true := by
  obtain ⟨_, select, _, _, _, _, _⟩ := theirs
  rw [ActionTree.merge]
  cases hselect : mine.select with
  | unselected => rw [hselect] at hmine; cases hmine
  | fields _ => cases select <;> rfl

end Merging

/-! ## Building -/

/-- A text is read to a syntax tree, and the action tree is built from that. -/
theorem ofText_eq_ok {text : String} {t : ActionTree} : ofText text = .ok t ↔
    ∃ tree, SyntaxTree.ofText text = .ok tree ∧ ofSyntax tree = .ok t := bind_eq_ok

/-- A property of levels that every step of building a tree keeps. -/
structure KeptByBuilding (P : ActionTree → Prop) : Prop where
  empty : ∀ name, P { empty with name }
  addSelector : ∀ t s, P t → P (t.addSelector s)
  modify : ∀ t m t', t.modify m = .ok t' → P t → P t'
  graft : ∀ t child, P t → P child → P (t.graft child)
  merge : ∀ mine theirs, P mine → P theirs → P (mine.merge theirs)

/-- A modifier leaves the name, the selection and the relations of a level as they are. -/
theorem modify_keeps {t t' : ActionTree} {m : Modifier} (h : t.modify m = .ok t') :
    t'.name = t.name ∧ t'.select = t.select ∧ t'.relations = t.relations := by
  cases m with
  | filter path op value =>
    rw [modify] at h
    split at h
    · cases h; exact ⟨rfl, rfl, rfl⟩
    · cases h
  | order _ _ | limit _ | offset _ => cases h; exact ⟨rfl, rfl, rfl⟩

namespace KeptByBuilding

variable {P : ActionTree → Prop} (hP : KeptByBuilding P)

include hP

theorem modifyAll {modifiers : List Modifier} {t t' : ActionTree} (h : t.modifyAll modifiers = .ok t')
    (ht : t.Everywhere P) : t'.Everywhere P := by
  induction modifiers generalizing t with
  | nil => cases h; exact ht
  | cons m rest ih =>
    obtain ⟨u, hu, h⟩ := bind_eq_ok.1 (show (t.modify m >>= fun t => t.modifyAll rest) = .ok t' from h)
    refine ih h (.intro (hP.modify t m u hu ht.here) ?_)
    rw [(modify_keeps hu).2.2]
    exact ht.inside

mutual

theorem ofLevel : ∀ {tree : SyntaxTree} {name : Option String} {t : ActionTree},
    ActionTree.ofLevel name tree = .ok t → t.Everywhere P
  | ⟨_, _⟩, _, _, h => by
    rw [ActionTree.ofLevel] at h
    obtain ⟨t, hfields, h⟩ := bind_eq_ok.1 h
    exact hP.modifyAll h (addFields hfields (.intro (hP.empty _) nofun))

theorem addFields : ∀ {fields : List (FieldEntry SyntaxTree)} {t t' : ActionTree},
    t.addFields fields = .ok t' → t.Everywhere P → t'.Everywhere P
  | [], _, _, h, ht => by cases h; exact ht
  | .name _ :: rest, t, _, h, ht | .excluded _ :: rest, t, _, h, ht | .wildcard :: rest, t, _, h, ht => by
    rw [ActionTree.addFields] at h
    exact addFields h (.intro (hP.addSelector t _ ht.here) ht.inside)
  | .relation _ _ :: rest, t, _, h, ht => by
    rw [ActionTree.addFields] at h
    obtain ⟨child, hchild, h⟩ := bind_eq_ok.1 h
    have hchild := ofLevel hchild
    exact addFields h (.graft hP.merge (hP.graft t child ht.here hchild.here) ht hchild)

end

/-- What building keeps, holds everywhere in the tree of a text. -/
theorem ofText {text : String} {t : ActionTree} (h : ActionTree.ofText text = .ok t) : t.Everywhere P := by
  obtain ⟨tree, _, h⟩ := ofText_eq_ok.1 h
  exact hP.ofLevel h

end KeptByBuilding

/-- In the tree of a text the relations of a level have different names. -/
theorem keysDiffer_ofText {text : String} {t : ActionTree} (h : ActionTree.ofText text = .ok t) :
    t.Everywhere KeysDiffer := by
  refine KeptByBuilding.ofText (P := KeysDiffer) ⟨fun _ => List.nodup_nil, fun _ _ h => h, fun t m t' hm ht => ?_,
    fun t child ht _ => Keyed.nodup_keys_alter ht, fun mine theirs hm _ => keysDiffer_merge hm theirs⟩ h
  rw [KeysDiffer, (modify_keeps hm).2.2]
  exact ht

theorem isOutput_keptByBuilding : KeptByBuilding fun t => t.select.isOutput = true where
  empty _ := rfl
  addSelector _ _ _ := rfl
  modify t m t' hm ht := by
    rw [(modify_keeps hm).2.1]
    exact ht
  graft _ _ ht _ := ht
  merge _ theirs hmine _ := isOutput_merge hmine theirs

/-- In the tree of a text every level is there for its output. -/
theorem isOutput_ofText {text : String} {t : ActionTree} (h : ActionTree.ofText text = .ok t) :
    t.Everywhere fun t => t.select.isOutput = true := isOutput_keptByBuilding.ofText h

end TreeQuery.ActionTree
