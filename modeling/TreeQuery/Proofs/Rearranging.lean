import Mathlib.Data.List.Basic
import TreeQuery.Proofs.Building

/-!
# Order within a kind

Of the modifiers of a level only the order of those of one kind counts, and of its fields the order of the relations
among themselves and that of the other fields among themselves: whatever else is rearranged, at any depth, the action
tree stays the same (`ofSyntax_of_rearranges`).

- Steps that are taken one after the other may be rearranged if those of different kinds may change places
  (`foldlM_eq_of_sameByKind`).
- A level is built in such steps: its modifiers (`modify_swap`) and its fields (`addFields_swap`).
-/

namespace TreeQuery

open Outcome

/-! ## Steps of several kinds -/

section Kinds

variable {α κ : Type} [DecidableEq κ] {kind : α → κ}

/-- Whether two lists have the same entries of each kind in the same order: the one is a permutation of the other, and
only entries of different kinds have changed places. -/
def SameByKind (kind : α → κ) (as bs : List α) : Prop :=
  ∀ k, (as.filter fun a => kind a = k) = bs.filter fun b => kind b = k

theorem SameByKind.eq_nil {bs : List α} (h : SameByKind kind [] bs) : bs = [] := by
  cases bs with
  | nil => rfl
  | cons b bs =>
    have hb : [] = (b :: bs).filter fun b' => kind b' = kind b := h (kind b)
    rw [List.filter_cons, if_pos (decide_eq_true rfl)] at hb
    cases hb

/-- The first entry of the one list stands in the other one behind entries of other kinds, and without it the lists
still agree. -/
theorem SameByKind.exists_eq_append {a : α} {as bs : List α} (h : SameByKind kind (a :: as) bs) :
    ∃ before after, bs = before ++ a :: after ∧ (∀ b ∈ before, kind b ≠ kind a) ∧
      SameByKind kind as (before ++ after) := by
  have ha : (a :: as).filter (fun b => kind b = kind a) = bs.filter fun b => kind b = kind a := h (kind a)
  rw [List.filter_cons, if_pos (decide_eq_true rfl)] at ha
  obtain ⟨before, after, rfl, hbefore, _, hafter⟩ := List.filter_eq_cons_iff.1 ha.symm
  have hothers : ∀ b ∈ before, kind b ≠ kind a := fun b hb hkind => hbefore b hb (decide_eq_true hkind)
  refine ⟨before, after, rfl, hothers, fun k => ?_⟩
  rw [List.filter_append]
  by_cases hkind : kind a = k
  · subst hkind
    have hnone : (before.filter fun b => kind b = kind a) = [] :=
      List.filter_eq_nil_iff.2 fun b hb hkind => hothers b hb (of_decide_eq_true hkind)
    rw [hnone, List.nil_append, hafter]
  · have hk := h k
    have hne : ¬decide (kind a = k) = true := fun h => hkind (of_decide_eq_true h)
    rw [List.filter_cons, if_neg hne, List.filter_append, List.filter_cons, if_neg hne] at hk
    exact hk

variable {σ ε : Type} {step : σ → α → Except ε σ}

/-- A step that may change places with each of some others may be taken before them. -/
theorem foldlM_append_cons {a : α} {before : List α}
    (hswap : ∀ b ∈ before, ∀ s, (step s b >>= fun s => step s a) = step s a >>= fun s => step s b) (after : List α)
    (s : σ) : (before ++ a :: after).foldlM step s = (a :: (before ++ after)).foldlM step s := by
  induction before generalizing s with
  | nil => rfl
  | cons b before ih =>
    have hrest := ih fun b hb => hswap b (List.mem_cons_of_mem _ hb)
    simp only [List.foldlM_cons, List.cons_append] at hrest ⊢
    simp only [hrest]
    rw [← bind_assoc, hswap b List.mem_cons_self, bind_assoc]

/-- If steps of different kinds may change places, then only the order of the steps of one kind counts. -/
theorem foldlM_eq_of_sameByKind
    (hswap : ∀ a b, kind a ≠ kind b → ∀ s, (step s a >>= fun s => step s b) = step s b >>= fun s => step s a)
    {as bs : List α} (h : SameByKind kind as bs) (s : σ) : as.foldlM step s = bs.foldlM step s := by
  induction as generalizing bs s with
  | nil => rw [h.eq_nil]
  | cons a as ih =>
    obtain ⟨before, after, rfl, hothers, hrest⟩ := h.exists_eq_append
    rw [foldlM_append_cons fun b hb => hswap b a (hothers b hb), List.foldlM_cons, List.foldlM_cons]
    exact bind_congr fun s => ih hrest s

end Kinds

/-! ## Rearranged trees -/

/-- What a modifier sets. -/
inductive ModifierKind where
  | filter
  | order
  | limit
  | offset
  deriving DecidableEq

/-- The kind of a modifier. -/
def Modifier.kind : Modifier → ModifierKind
  | .filter .. => .filter
  | .order .. => .order
  | .limit _ => .limit
  | .offset _ => .offset

/-- Whether an entry of a field list holds a level of its own. -/
def FieldEntry.isRelation {Level : Type} : FieldEntry Level → Bool
  | .relation .. => true
  | .name _ | .excluded _ | .wildcard => false

/-- One syntax tree results from another one by rearranging its levels, any number of them and at any depth: among the
modifiers of a level the filters, the orders, the limits and the offsets each keep their order, and among its fields the
relations and the other fields do. -/
inductive SyntaxTree.Rearranges : SyntaxTree → SyntaxTree → Prop
  | modifiers (fields : List (FieldEntry SyntaxTree)) {modifiers modifiers' : List Modifier}
    (h : SameByKind Modifier.kind modifiers modifiers') : Rearranges ⟨fields, modifiers⟩ ⟨fields, modifiers'⟩
  | fields {fields fields' : List (FieldEntry SyntaxTree)} (modifiers : List Modifier)
    (h : SameByKind FieldEntry.isRelation fields fields') : Rearranges ⟨fields, modifiers⟩ ⟨fields', modifiers⟩
  | inside {level level' : SyntaxTree} (label : String) (before after : List (FieldEntry SyntaxTree))
    (modifiers : List Modifier) (h : Rearranges level level') :
    Rearranges ⟨before ++ .relation label level :: after, modifiers⟩
      ⟨before ++ .relation label level' :: after, modifiers⟩
  | trans {a b c : SyntaxTree} (h : Rearranges a b) (h' : Rearranges b c) : Rearranges a c

namespace ActionTree

theorem modifyAll_eq_foldlM (modifiers : List Modifier) (t : ActionTree) :
    t.modifyAll modifiers = modifiers.foldlM modify t := by
  induction modifiers generalizing t with
  | nil => rfl
  | cons m modifiers ih =>
    rw [modifyAll, List.foldlM_cons]
    exact bind_congr ih

theorem addFields_eq_foldlM (fields : List (FieldEntry SyntaxTree)) (t : ActionTree) :
    t.addFields fields = fields.foldlM (fun t entry => t.addFields [entry]) t := by
  induction fields generalizing t with
  | nil => rfl
  | cons entry fields ih =>
    rw [List.foldlM_cons, ← List.singleton_append, addFields_append]
    exact bind_congr ih

/-- Modifiers of different kinds set different parts of a level. -/
theorem modify_swap {m n : Modifier} (h : m.kind ≠ n.kind) (t : ActionTree) :
    (t.modify m >>= fun t => t.modify n) = t.modify n >>= fun t => t.modify m := by
  have hfilter (path : List String) (operator : Operator) (value : Value) {n : Modifier} (hn : n.kind ≠ .filter) :
      (t.modify (.filter path operator value) >>= fun t => t.modify n) =
        t.modify n >>= fun t => t.modify (.filter path operator value) := by
    cases n with
    | filter => exact absurd rfl hn
    | order | limit | offset => cases hpath : FieldPath.ofSegments? path <;> simp only [modify, hpath] <;> rfl
  cases m with
  | filter path operator value => exact hfilter path operator value h.symm
  | order | limit | offset =>
    cases n with
    | filter path operator value => exact (hfilter path operator value h).symm
    | order | limit | offset => first | rfl | exact absurd rfl h

theorem addFields_relation_swap {entry : FieldEntry SyntaxTree} (h : entry.isRelation = false) (label : String)
    (level : SyntaxTree) (t : ActionTree) :
    (t.addFields [entry] >>= fun t => t.addFields [.relation label level]) =
      t.addFields [.relation label level] >>= fun t => t.addFields [entry] := by
  cases entry with
  | relation => cases h
  | name | excluded | wildcard =>
    simp only [addFields, ok_bind, bind_assoc]
    rfl

/-- Relations and other fields set different parts of a level. -/
theorem addFields_swap {a b : FieldEntry SyntaxTree} (h : a.isRelation ≠ b.isRelation) (t : ActionTree) :
    (t.addFields [a] >>= fun t => t.addFields [b]) = t.addFields [b] >>= fun t => t.addFields [a] := by
  cases b with
  | relation label level => exact addFields_relation_swap (Bool.eq_false_iff.2 h) label level t
  | name | excluded | wildcard =>
    cases a with
    | relation label level => exact (addFields_relation_swap rfl label level t).symm
    | name | excluded | wildcard => exact absurd rfl h

theorem ofLevel_of_rearranges {tree tree' : SyntaxTree} (h : tree.Rearranges tree') (name : Option String) :
    ofLevel name tree = ofLevel name tree' := by
  induction h generalizing name with
  | modifiers fields h =>
    rw [ofLevel, ofLevel]
    refine bind_congr fun t => ?_
    rw [modifyAll_eq_foldlM, modifyAll_eq_foldlM, foldlM_eq_of_sameByKind (fun _ _ => modify_swap) h]
  | fields modifiers h =>
    rw [ofLevel, ofLevel, addFields_eq_foldlM, addFields_eq_foldlM,
      foldlM_eq_of_sameByKind (fun _ _ => addFields_swap) h]
  | inside label before after modifiers _ ih => exact ofLevel_inside ih name label before after modifiers
  | trans _ _ ih ih' => rw [ih, ih']

/-- **Only the order within a kind counts.** Trees that differ in no other order describe the same action tree, with
its selectors, filters and relations in one order; and there is one if each filter names a field. -/
theorem ofSyntax_of_rearranges {tree tree' : SyntaxTree} (h : tree.Rearranges tree') :
    ofSyntax tree = ofSyntax tree' ∧
      (tree.NamesFields → ∃ t, ofSyntax tree = .ok t ∧ ofSyntax tree' = .ok t) := by
  have hsame : ofSyntax tree = ofSyntax tree' := ofLevel_of_rearranges h none
  refine ⟨hsame, fun hnames => ?_⟩
  obtain ⟨t, ht⟩ := exists_ofLevel hnames none
  exact ⟨t, ht, hsame ▸ ht⟩

/-- Tasks with their steps asked for twice, where limits of the steps and orders of the tasks override each other. -/
def tasksWithSteps : SyntaxTree :=
  ⟨[.relation "steps" ⟨[.name "id"], [.limit 3, .filter ["done"] (.compare .equal) (.int 1), .limit 2]⟩,
    .name "title", .relation "steps" ⟨[.name "label"], []⟩, .name "id"],
    [.order "id" .ascending, .offset 1, .order "title" .descending]⟩

/-- The same tasks with fields first, and with modifiers grouped by their kind. -/
def tasksGrouped : SyntaxTree :=
  ⟨[.name "title", .name "id",
    .relation "steps" ⟨[.name "id"], [.filter ["done"] (.compare .equal) (.int 1), .limit 3, .limit 2]⟩,
    .relation "steps" ⟨[.name "label"], []⟩],
    [.order "id" .ascending, .order "title" .descending, .offset 1]⟩

/-- The action tree of both. -/
def limitedTasks : ActionTree :=
  { empty with
    select := .fields [.field "title", .field "id"]
    sort := some ⟨"title", .descending⟩
    offset := some 1
    relations := [("steps", { empty with
      name := some "steps"
      select := .fields [.field "id", .field "label"]
      filters := [⟨⟨[], "done"⟩, .compare .equal, .int 1⟩]
      limit := some 2 })] }

theorem ofSyntax_of_rearranges_steps : tasksWithSteps.Rearranges tasksGrouped ∧ tasksWithSteps.NamesFields ∧
    ofSyntax tasksWithSteps = .ok limitedTasks ∧ ofSyntax tasksGrouped = .ok limitedTasks := by
  have hlimits : SyntaxTree.Rearranges
      ⟨[.name "id"], [.limit 3, .filter ["done"] (.compare .equal) (.int 1), .limit 2]⟩
      ⟨[.name "id"], [.filter ["done"] (.compare .equal) (.int 1), .limit 3, .limit 2]⟩ :=
    .modifiers _ fun k => by cases k <;> rfl
  have hsteps : tasksWithSteps.Rearranges _ := .inside "steps" [] _ _ hlimits
  have hfields : SyntaxTree.Rearranges _ ⟨tasksGrouped.fields, tasksWithSteps.modifiers⟩ :=
    hsteps.trans (.fields _ fun k => by cases k <;> rfl)
  have hmodifiers : tasksWithSteps.Rearranges tasksGrouped :=
    hfields.trans (.modifiers _ fun k => by cases k <;> rfl)
  have hsimple {label : String} {modifiers : List Modifier} (h : ∀ m ∈ modifiers, m.NamesField) :
      SyntaxTree.NamesFields ⟨[.name label], modifiers⟩ := .intro h (by simp)
  have hnames : tasksWithSteps.NamesFields := by
    refine .intro (by simp [Modifier.NamesField]) fun label level hlevel => ?_
    simp only [List.mem_cons, FieldEntry.relation.injEq, reduceCtorEq, List.not_mem_nil, or_false, false_or] at hlevel
    rcases hlevel with ⟨_, rfl⟩ | ⟨_, rfl⟩
    · exact hsimple (by simp [Modifier.NamesField])
    · exact hsimple nofun
  obtain ⟨t, ht, ht'⟩ := (ofSyntax_of_rearranges hmodifiers).2 hnames
  have htree : ofSyntax tasksGrouped = .ok limitedTasks := rfl
  cases ht'.symm.trans htree
  exact ⟨hmodifiers, hnames, ht, ht'⟩

end ActionTree

end TreeQuery
