import TreeQuery.Proofs.Blame
import TreeQuery.Proofs.Merging

/-!
# Building repeated relations

Two relations of one name next to each other may be written as one, with the fields and the modifiers of both in order:
the action tree is the same, wherever in a query they stand. Likewise, to build a level of two parts is to merge the
level of the second part into that of the first (`ofLevel_append`).

- A level is built in steps: a selector, a relation, a modifier. Each step may be taken before the level is merged into
  another one or after that (`merge_addSelector`, `merge_graft`, `modify_cases`), and hence all of its fields and
  modifiers may be added afterwards (`addFields_merge`, `modifyAll_merge`).
- Fields and modifiers may be added in either order (`addFields_modifyAll`), so all of the first part may come before
  the second part.
-/

namespace TreeQuery

open Outcome

theorem Selection.merge_addNew (mine theirs : Selection) (s : Selector) :
    mine.merge (.fields (addNew theirs.selectors s)) = .fields (addNew (mine.merge theirs).selectors s) := by
  cases theirs with
  | unselected => cases mine <;> rfl
  | fields theirs =>
    cases mine with
    | unselected => rfl
    | fields mine => exact congrArg Selection.fields (foldl_foldl_addNew mine theirs [s])

namespace ActionTree

/-! ## Steps that may change places -/

theorem merge_addSelector (a t : ActionTree) (s : Selector) :
    a.merge (t.addSelector s) = (a.merge t).addSelector s := by
  rw [merge_eq, merge_eq]
  simp only [addSelector, Selection.merge_addNew]

theorem merge_addFilter (a t : ActionTree) (f : Filter) : a.merge (t.addFilter f) = (a.merge t).addFilter f := by
  have hfilters : (TreeQuery.addFilter t.filters f).foldl TreeQuery.addFilter a.filters =
      TreeQuery.addFilter (t.filters.foldl TreeQuery.addFilter a.filters) f := foldl_addFilter a.filters t.filters [f]
  rw [merge_eq, merge_eq]
  simp only [addFilter, hfilters]

/-- A change of levels that may be made before a field is added or after it. -/
structure CommutesWithFields (change : ActionTree → ActionTree) : Prop where
  addSelector : ∀ t s, change (t.addSelector s) = (change t).addSelector s
  graft : ∀ t child, t.Everywhere WellFiled → child.Everywhere WellFiled →
    change (t.graft child) = (change t).graft child

theorem commutesWithFields_merge (a : ActionTree) : CommutesWithFields a.merge where
  addSelector t s := merge_addSelector a t s
  graft _ _ ht hchild := merge_graft a ht hchild

/-- A modifier changes every level, in a way that has nothing to do with fields and with levels that it is merged into,
or it is refused on every level. -/
theorem modify_cases (m : Modifier) :
    (∃ change : ActionTree → ActionTree, (∀ t : ActionTree, t.modify m = .ok (change t)) ∧
      CommutesWithFields change ∧ ∀ a t : ActionTree, a.merge (change t) = change (a.merge t)) ∨
    ∀ t : ActionTree, t.modify m = .error (.invalid .filterWithoutField) := by
  cases m with
  | filter path operator value =>
    cases hpath : FieldPath.ofSegments? path with
    | none => exact .inr fun t => by rw [modify, hpath]
    | some path =>
      refine .inl ⟨fun t => t.addFilter ⟨path, operator, value⟩, fun t => by rw [modify, hpath], ?_, ?_⟩
      · exact ⟨fun _ _ => rfl, fun _ _ _ _ => rfl⟩
      · exact fun a t => merge_addFilter a t _
  | order field order =>
    refine .inl ⟨fun t => { t with sort := some ⟨field, order⟩ }, fun _ => rfl,
      ⟨fun _ _ => rfl, fun _ _ _ _ => rfl⟩, ?_⟩
    intro a t
    rw [merge_eq, merge_eq]
    rfl
  | limit count =>
    refine .inl ⟨fun t => { t with limit := some count }, fun _ => rfl, ⟨fun _ _ => rfl, fun _ _ _ _ => rfl⟩, ?_⟩
    intro a t
    rw [merge_eq, merge_eq]
    rfl
  | offset count =>
    refine .inl ⟨fun t => { t with offset := some count }, fun _ => rfl, ⟨fun _ _ => rfl, fun _ _ _ _ => rfl⟩, ?_⟩
    intro a t
    rw [merge_eq, merge_eq]
    rfl

/-! ## Fields and modifiers -/

theorem addFields_append (before after : List (FieldEntry SyntaxTree)) (t : ActionTree) :
    t.addFields (before ++ after) = t.addFields before >>= fun t => t.addFields after := by
  induction before generalizing t with
  | nil => rw [List.nil_append, addFields]; rfl
  | cons entry before ih =>
    cases entry with
    | name _ | excluded _ | wildcard => rw [List.cons_append, addFields, addFields, ih]
    | relation _ _ =>
      rw [List.cons_append, addFields, addFields, bind_assoc]
      exact bind_congr fun child => ih _

theorem modifyAll_append (before after : List Modifier) (t : ActionTree) :
    t.modifyAll (before ++ after) = t.modifyAll before >>= fun t => t.modifyAll after := by
  induction before generalizing t with
  | nil => rfl
  | cons m before ih =>
    rw [List.cons_append, modifyAll, modifyAll, bind_assoc]
    exact bind_congr fun t => ih t

theorem wellFiled_addSelector {t : ActionTree} (ht : t.Everywhere WellFiled) (s : Selector) :
    (t.addSelector s).Everywhere WellFiled := .intro ht.here ht.inside

theorem wellFiled_graft {t child : ActionTree} (ht : t.Everywhere WellFiled) (hchild : child.Everywhere WellFiled) :
    (t.graft child).Everywhere WellFiled :=
  .graft wellFiled_keptByBuilding.merge (wellFiled_keptByBuilding.graft t child ht.here hchild.here) ht hchild

/-- A change that commutes with each field commutes with a list of them. -/
theorem CommutesWithFields.addFields {change : ActionTree → ActionTree} (hchange : CommutesWithFields change)
    (fields : List (FieldEntry SyntaxTree)) {t : ActionTree} (ht : t.Everywhere WellFiled) :
    (change t).addFields fields = (t.addFields fields).map change := by
  induction fields generalizing t with
  | nil => rw [ActionTree.addFields, ActionTree.addFields]; rfl
  | cons entry fields ih =>
    cases entry with
    | name _ | excluded _ | wildcard =>
      rw [ActionTree.addFields, ActionTree.addFields, ← hchange.addSelector, ih (wellFiled_addSelector ht _)]
    | relation label level =>
      rw [ActionTree.addFields, ActionTree.addFields, map_bind]
      cases hchild : ofLevel (some label) level with
      | error _ => rfl
      | ok child =>
        have hchild : child.Everywhere WellFiled := wellFiled_ofLevel hchild
        rw [ok_bind, ok_bind, ← hchange.graft t child ht hchild, ih (wellFiled_graft ht hchild)]

/-- Fields and modifiers may be added in either order. -/
theorem addFields_modifyAll (fields : List (FieldEntry SyntaxTree)) (modifiers : List Modifier) {t : ActionTree}
    (ht : t.Everywhere WellFiled) :
    (t.addFields fields >>= fun t => t.modifyAll modifiers) =
      t.modifyAll modifiers >>= fun t => t.addFields fields := by
  induction modifiers generalizing t with
  | nil =>
    rw [modifyAll, ok_bind]
    exact bind_pure _
  | cons m modifiers ih =>
    rcases modify_cases m with ⟨change, hm, hfields, _⟩ | hm
    · have hchanged : (change t).Everywhere WellFiled := by
        refine .intro (wellFiled_keptByBuilding.modify t m _ (hm t) ht.here) ?_
        rw [(modify_keeps (hm t)).2.2]
        exact ht.inside
      calc (t.addFields fields >>= fun t => t.modifyAll (m :: modifiers))
          = (t.addFields fields).map change >>= fun t => t.modifyAll modifiers := by
            simp only [modifyAll, hm, ok_bind, bind_map]
        _ = (change t).addFields fields >>= fun t => t.modifyAll modifiers := by rw [hfields.addFields fields ht]
        _ = (change t).modifyAll modifiers >>= fun t => t.addFields fields := ih hchanged
        _ = t.modifyAll (m :: modifiers) >>= fun t => t.addFields fields := by rw [modifyAll, hm, ok_bind]
    -- A refused modifier gives the one error that fields can give.
    · rw [modifyAll, hm, error_bind, error_bind]
      simp only [modifyAll, hm, error_bind]
      cases hfields : t.addFields fields with
      | ok _ => rfl
      | error _ => rw [addFields_eq_error hfields]; rfl

theorem addFields_merge (a : ActionTree) {t : ActionTree} (ht : t.Everywhere WellFiled)
    (fields : List (FieldEntry SyntaxTree)) : (a.merge t).addFields fields = (t.addFields fields).map a.merge :=
  (commutesWithFields_merge a).addFields fields ht

theorem modifyAll_merge (a t : ActionTree) (modifiers : List Modifier) :
    (a.merge t).modifyAll modifiers = (t.modifyAll modifiers).map a.merge := by
  induction modifiers generalizing t with
  | nil => rfl
  | cons m modifiers ih =>
    rw [modifyAll, modifyAll, map_bind]
    rcases modify_cases m with ⟨change, hm, _, hmerge⟩ | hm
    · rw [hm, hm, ok_bind, ok_bind, ← hmerge, ih]
    · rw [hm, hm, error_bind, error_bind]

/-! ## Levels of two parts -/

theorem wellFiled_empty (name : Option String) : { empty with name }.Everywhere WellFiled := .intro filed_nil nofun

/-- A level that is there for its output does not change when an empty one is merged into it. -/
theorem merge_empty {a : ActionTree} (ha : a.select.isOutput = true) (name : Option String) :
    a.merge { empty with name } = a := by
  obtain ⟨_, select, _, _, _, _, _⟩ := a
  cases select with
  | unselected => cases ha
  | fields _ =>
    show merge _ ⟨name, .fields [], [], none, none, none, []⟩ = _
    rw [merge, mergeRelations]
    rfl

/-- The rest of a level may be built as a level of its own, and merged into what is there. -/
theorem addFields_modifyAll_eq_merge {a : ActionTree} (houtput : a.select.isOutput = true)
    (name : Option String) (fields : List (FieldEntry SyntaxTree)) (modifiers : List Modifier) :
    (a.addFields fields >>= fun t => t.modifyAll modifiers) = (ofLevel name ⟨fields, modifiers⟩).map a.merge := by
  have hfields : a.addFields fields = ({ empty with name }.addFields fields).map a.merge := by
    rw [← addFields_merge a (wellFiled_empty name), merge_empty houtput]
  rw [hfields, bind_map, ofLevel, map_bind]
  exact bind_congr fun t => modifyAll_merge a t modifiers

/-- To build a level of two parts is to merge the level of the second part into that of the first. -/
theorem ofLevel_append (name : Option String) (fields₁ fields₂ : List (FieldEntry SyntaxTree))
    (modifiers₁ modifiers₂ : List Modifier) :
    ofLevel name ⟨fields₁ ++ fields₂, modifiers₁ ++ modifiers₂⟩ = (do
      let a ← ofLevel name ⟨fields₁, modifiers₁⟩
      let b ← ofLevel name ⟨fields₂, modifiers₂⟩
      return a.merge b) := by
  have hswap : ∀ t, { empty with name }.addFields fields₁ = .ok t →
      ((t.addFields fields₂ >>= fun t => t.modifyAll modifiers₁) >>= fun t => t.modifyAll modifiers₂) =
        (t.modifyAll modifiers₁ >>= fun t => t.addFields fields₂) >>= fun t => t.modifyAll modifiers₂ := by
    intro t ht
    rw [addFields_modifyAll fields₂ modifiers₁ (wellFiled_keptByBuilding.addFields ht (wellFiled_empty name))]
  have hrest : ∀ a, ofLevel name ⟨fields₁, modifiers₁⟩ = .ok a →
      (a.addFields fields₂ >>= fun t => t.modifyAll modifiers₂) =
        ofLevel name ⟨fields₂, modifiers₂⟩ >>= fun b => .ok (a.merge b) := by
    intro a ha
    have houtput : a.select.isOutput = true := (isOutput_keptByBuilding.ofLevel ha).here
    rw [addFields_modifyAll_eq_merge houtput name]
    rfl
  calc ofLevel name ⟨fields₁ ++ fields₂, modifiers₁ ++ modifiers₂⟩
      = { empty with name }.addFields fields₁ >>= fun t =>
          (t.addFields fields₂ >>= fun t => t.modifyAll modifiers₁) >>= fun t => t.modifyAll modifiers₂ := by
        simp only [ofLevel, addFields_append, modifyAll_append, bind_assoc]
    _ = { empty with name }.addFields fields₁ >>= fun t =>
          (t.modifyAll modifiers₁ >>= fun t => t.addFields fields₂) >>= fun t => t.modifyAll modifiers₂ :=
        bind_congr_ok hswap
    _ = ofLevel name ⟨fields₁, modifiers₁⟩ >>= fun a => a.addFields fields₂ >>= fun t => t.modifyAll modifiers₂ := by
        simp only [ofLevel, bind_assoc]
    _ = _ := bind_congr_ok hrest

/-! ## Names of levels -/

theorem name_modifyAll {modifiers : List Modifier} {t t' : ActionTree} (h : t.modifyAll modifiers = .ok t') :
    t'.name = t.name := by
  induction modifiers generalizing t with
  | nil => cases h; rfl
  | cons m modifiers ih =>
    obtain ⟨u, hu, h⟩ := bind_eq_ok.1 (show (t.modify m >>= fun t => t.modifyAll modifiers) = .ok t' from h)
    exact (ih h).trans (modify_keeps hu).1

theorem name_addFields {fields : List (FieldEntry SyntaxTree)} {t t' : ActionTree} (h : t.addFields fields = .ok t') :
    t'.name = t.name := by
  induction fields generalizing t with
  | nil => rw [addFields] at h; cases h; rfl
  | cons entry fields ih =>
    cases entry with
    | name _ | excluded _ | wildcard =>
      rw [addFields] at h
      exact (ih h).trans rfl
    | relation _ _ =>
      rw [addFields] at h
      obtain ⟨child, _, h⟩ := bind_eq_ok.1 h
      exact (ih h).trans rfl

/-- A level has the name under which it is reached. -/
theorem name_ofLevel {name : Option String} {tree : SyntaxTree} {t : ActionTree} (h : ofLevel name tree = .ok t) :
    t.name = name := by
  obtain ⟨fields, modifiers⟩ := tree
  rw [ofLevel] at h
  obtain ⟨u, hu, h⟩ := bind_eq_ok.1 h
  exact (name_modifyAll h).trans (name_addFields hu)

end ActionTree

/-! ## Syntax trees -/

/-- One syntax tree results from another one, at any depth, by writing two relations of one name that stand next to
each other as one relation, with the fields and the modifiers of both. -/
inductive SyntaxTree.Fuses : SyntaxTree → SyntaxTree → Prop
  | here (label : String) (before after fields₁ fields₂ : List (FieldEntry SyntaxTree))
    (modifiers modifiers₁ modifiers₂ : List Modifier) :
    Fuses ⟨before ++ .relation label ⟨fields₁, modifiers₁⟩ :: .relation label ⟨fields₂, modifiers₂⟩ :: after, modifiers⟩
      ⟨before ++ .relation label ⟨fields₁ ++ fields₂, modifiers₁ ++ modifiers₂⟩ :: after, modifiers⟩
  | inside {level level' : SyntaxTree} (label : String) (before after : List (FieldEntry SyntaxTree))
    (modifiers : List Modifier) (h : Fuses level level') :
    Fuses ⟨before ++ .relation label level :: after, modifiers⟩ ⟨before ++ .relation label level' :: after, modifiers⟩

namespace ActionTree

/-- Levels are equal if their fields may take each other's place behind the same fields. -/
theorem ofLevel_congr {fields fields' : List (FieldEntry SyntaxTree)}
    (h : ∀ t : ActionTree, t.Everywhere WellFiled → t.addFields fields = t.addFields fields') (name : Option String)
    (before : List (FieldEntry SyntaxTree)) (modifiers : List Modifier) :
    ofLevel name ⟨before ++ fields, modifiers⟩ = ofLevel name ⟨before ++ fields', modifiers⟩ := by
  rw [ofLevel, ofLevel, addFields_append, addFields_append, bind_assoc, bind_assoc]
  refine bind_congr_ok fun t ht => ?_
  rw [h t (wellFiled_keptByBuilding.addFields ht (wellFiled_empty name))]

/-- Equal levels of a relation may take each other's place. -/
theorem ofLevel_inside {level level' : SyntaxTree} (h : ∀ name, ofLevel name level = ofLevel name level')
    (name : Option String) (label : String) (before after : List (FieldEntry SyntaxTree)) (modifiers : List Modifier) :
    ofLevel name ⟨before ++ .relation label level :: after, modifiers⟩ =
      ofLevel name ⟨before ++ .relation label level' :: after, modifiers⟩ := by
  refine ofLevel_congr (fun t _ => ?_) name before modifiers
  rw [addFields, addFields, h]

theorem ofLevel_of_fuses {tree tree' : SyntaxTree} (h : tree.Fuses tree') (name : Option String) :
    ofLevel name tree = ofLevel name tree' := by
  induction h generalizing name with
  | here label before after fields₁ fields₂ modifiers modifiers₁ modifiers₂ =>
    refine ofLevel_congr (fun t ht => ?_) name before modifiers
    rw [addFields, addFields, ofLevel_append, bind_assoc]
    refine bind_congr_ok fun a ha => ?_
    rw [addFields, bind_assoc]
    refine bind_congr_ok fun b hb => ?_
    have hkey : b.key = a.key := by rw [key, key, name_ofLevel ha, name_ofLevel hb]
    rw [graft_graft t (wellFiled_ofLevel ha) (wellFiled_ofLevel hb) hkey]
    rfl
  | inside label before after modifiers _ ih => exact ofLevel_inside ih name label before after modifiers

/-- Relations of one name next to each other may be written as one, at any depth, without a change of the action tree;
and to build a level of two parts is to merge the level of the second part into that of the first. -/
theorem ofSyntax_of_fuses :
    (∀ tree tree' : SyntaxTree, tree.Fuses tree' → ofSyntax tree = ofSyntax tree') ∧
    ∀ (name : Option String) (fields₁ fields₂ : List (FieldEntry SyntaxTree)) (modifiers₁ modifiers₂ : List Modifier),
      ofLevel name ⟨fields₁ ++ fields₂, modifiers₁ ++ modifiers₂⟩ = (do
        let a ← ofLevel name ⟨fields₁, modifiers₁⟩
        let b ← ofLevel name ⟨fields₂, modifiers₂⟩
        return a.merge b) :=
  ⟨fun _ _ h => ofLevel_of_fuses h none, ofLevel_append⟩

/-- Tasks with the media of their steps, which are asked for twice. -/
def stepsWithMedia : SyntaxTree :=
  ⟨[.name "title", .relation "steps" ⟨[.relation "media" ⟨[.name "kind"], [.limit 3, .order "id" .ascending]⟩,
    .relation "media" ⟨[.name "id", .name "kind"], [.limit 2]⟩], []⟩], []⟩

theorem ofSyntax_of_fuses_media :
    stepsWithMedia.Fuses ⟨[.name "title", .relation "steps" ⟨[.relation "media"
      ⟨[.name "kind", .name "id", .name "kind"], [.limit 3, .order "id" .ascending, .limit 2]⟩], []⟩], []⟩ ∧
    ofSyntax stepsWithMedia = .ok ⟨none, .fields [.field "title"], [], none, none, none,
      [("steps", ⟨some "steps", .fields [], [], none, none, none,
        [("media", ⟨some "media", .fields [.field "kind", .field "id"], [], some ⟨"id", .ascending⟩, some 2, none,
          []⟩)]⟩)]⟩ := by
  have hmedia := SyntaxTree.Fuses.here "media" [] [] [.name "kind"] [.name "id", .name "kind"] []
    [.limit 3, .order "id" .ascending] [.limit 2]
  have hfuses := SyntaxTree.Fuses.inside "steps" [.name "title"] [] [] hmedia
  exact ⟨hfuses, (ofSyntax_of_fuses.1 stepsWithMedia _ hfuses).trans rfl⟩

end ActionTree

end TreeQuery
