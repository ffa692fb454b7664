import TreeQuery.Proofs.PlanLevels
import TreeQuery.Proofs.Sql.Nesting
import TreeQuery.Proofs.Windows

/-!
# How deep plans and their selects nest

A plan nests as deep as its routed tree, and a compiled level nests as deep as its plan.

- Joins of a plan that stand behind one another (`PlannedLevel.Chain`) carry the labels of a path of branches, and each
  path of branches (`RoutedTree.Leads`) is that of such joins (`exists_chain_iff_leads`). A join that is left for its
  conditions has no more behind it than the level that it is taken from (`Chain.of_onlyConditions`).
- The joins of a compiled level that stand behind one another are those of the plan (`exists_chain_select_iff`).
- No expression of a compiled level is higher than four (`height_exprs_select`), and each join puts two more selects
  around a level, so that a bound on the joins is one on the height (`height_select`).
-/

namespace TreeQuery

open Outcome Sql

/-! ## Plans -/

/-- Whether a path of branches starts at a level. -/
inductive RoutedTree.Leads : RoutedTree → List String → Prop
  | here (t : RoutedTree) : Leads t []
  | behind {t : RoutedTree} {b : Branch RoutedTree} {path : List String} (hb : b ∈ t.branches)
      (h : Leads b.level path) : Leads t (b.label :: path)

/-- Joins of a plan, each behind the one before it: the first is a join of the level, and any other one of the level
that the one before it leads to. -/
inductive PlannedLevel.Chain : PlannedLevel → List (JoinedLevel PlannedLevel) → Prop
  | nil (l : PlannedLevel) : Chain l []
  | cons {l : PlannedLevel} {j : JoinedLevel PlannedLevel} {chain : List (JoinedLevel PlannedLevel)}
      (hj : j ∈ l.relations) (h : Chain j.level chain) : Chain l (j :: chain)

theorem RoutedTree.leads_cons {t : RoutedTree} {label : String} {path : List String} :
    t.Leads (label :: path) ↔ ∃ b ∈ t.branches, b.label = label ∧ b.level.Leads path := by
  constructor
  · intro h
    cases h with
    | behind hb h => exact ⟨_, hb, rfl, h⟩
  · rintro ⟨b, hb, rfl, h⟩
    exact .behind hb h

namespace PlannedLevel

/-- What stands behind one another in a level that is left for its conditions, does so in the level itself. -/
theorem Chain.of_onlyConditions {l : PlannedLevel} {chain : List (JoinedLevel PlannedLevel)}
    (h : l.onlyConditions.Chain chain) :
    ∃ chain', l.Chain chain' ∧ chain'.map JoinedLevel.label = chain.map JoinedLevel.label := by
  induction chain generalizing l with
  | nil => exact ⟨[], .nil l, rfl⟩
  | cons j chain ih =>
    cases h with
    | cons hj h =>
      rw [relations_onlyConditions] at hj
      obtain ⟨k, hk, _, rfl⟩ := mem_onlyRestricting.1 hj
      obtain ⟨chain', hchain, hlabels⟩ := ih h
      exact ⟨k :: chain', .cons hk hchain, congrArg (k.label :: ·) hlabels⟩

/-- Joins behind a join of a branch are joins of the level behind the branch. -/
theorem Chain.of_mem_joinsOf {label : String} {rel : Relationship} {restricts : Bool} {l : PlannedLevel}
    {j : JoinedLevel PlannedLevel} (hj : j ∈ joinsOf label rel restricts l) {chain : List (JoinedLevel PlannedLevel)}
    (h : j.level.Chain chain) :
    ∃ chain', l.Chain chain' ∧ chain'.map JoinedLevel.label = chain.map JoinedLevel.label := by
  obtain ⟨_, _, hlevel | ⟨_, hlevel, _⟩⟩ := level_of_mem_joinsOf hj
  · rw [hlevel] at h
    exact ⟨chain, h, rfl⟩
  · rw [hlevel] at h
    exact h.of_onlyConditions

end PlannedLevel

/-- The level behind a branch is joined as a whole. -/
theorem exists_mem_joinsOf (label : String) (rel : Relationship) (restricts : Bool) (l : PlannedLevel) :
    ∃ j ∈ joinsOf label rel restricts l, j.label = label ∧ j.level = l := by
  rcases joinsOf_outer_or_inner label rel restricts l with hj | hjoins
  · exact ⟨_, hj, rfl, rfl⟩
  · rw [hjoins]
    exact ⟨_, List.mem_singleton_self _, rfl, rfl⟩

/-- **A plan nests as its routed tree does.** The labels of joins that stand behind one another are the paths of
branches. -/
theorem exists_chain_iff_leads {r : Registry} {e : Entity} {t : RoutedTree} {p : PlannedLevel}
    (h : t.plan r e = .ok p) {path : List String} :
    (∃ chain, p.Chain chain ∧ chain.map JoinedLevel.label = path) ↔ t.Leads path := by
  induction path generalizing t e p with
  | nil => exact iff_of_true ⟨[], .nil p, rfl⟩ (.here t)
  | cons label path ih =>
    obtain ⟨_, _, _, joins, _, _, _, hjoins, rfl⟩ := RoutedTree.plan_eq_ok.1 h
    rw [RoutedTree.leads_cons]
    constructor
    · rintro ⟨_, hchain, hlabels⟩
      cases hchain with
      | nil => cases hlabels
      | cons hj hchain =>
        obtain ⟨hlabel, rfl⟩ := List.cons.inj hlabels
        obtain ⟨b, hb, rel, l, ⟨d, _, _, hl⟩, hj⟩ := (mem_planBranches hjoins).1 hj
        rw [(level_of_mem_joinsOf hj).1] at hlabel
        exact ⟨b, hb, hlabel, (ih hl).1 (hchain.of_mem_joinsOf hj)⟩
    · rintro ⟨b, hb, rfl, hleads⟩
      obtain ⟨rel, l, d, hrel, hd, hl⟩ := exists_plansTo hjoins hb
      obtain ⟨chain, hchain, rfl⟩ := (ih hl).2 hleads
      obtain ⟨j, hj, hlabel, hlevel⟩ := exists_mem_joinsOf b.label rel b.restricts l
      have hmem : j ∈ joins := (mem_planBranches hjoins).2 ⟨b, hb, rel, l, ⟨d, hrel, hd, hl⟩, hj⟩
      rw [← hlevel] at hchain
      exact ⟨j :: chain, .cons hmem hchain, congrArg (· :: _) hlabel⟩

/-! ## Compiled levels -/

section Compiled

variable {entity : Entity} {table : String} {n : Nat} {joins : List (JoinedLevel PlannedLevel)}
  {relations : List Attachment}

/-- A join of a plan is attached to a table: the level behind it is compiled, folded and joined in the same way. -/
def JoinedLevel.AttachedAs (j : JoinedLevel PlannedLevel) (table : String) (a : Attachment) : Prop :=
  ∃ m inner rows array, j.level.select m (.child j.relationship.childColumn) = .ok inner ∧
    a = attachment table j.label j.relationship j.join j.level inner rows array

/-- Each relation of a level is attached, and nothing else is. -/
theorem attachedAs_of_attachments (h : attachments entity table n joins = .ok relations) :
    (∀ j ∈ joins, ∃ a ∈ relations, j.AttachedAs table a) ∧ ∀ a ∈ relations, ∃ j ∈ joins, j.AttachedAs table a := by
  have hall := forall₂_attachments h
  clear h
  induction hall with
  | nil => exact ⟨List.forall_mem_nil _, List.forall_mem_nil _⟩
  | @cons j a joins relations hj _ ih =>
    obtain ⟨_, m, inner, hinner, ha⟩ := hj
    have hattached : j.AttachedAs table a := ⟨m, inner, _, _, hinner, ha⟩
    obtain ⟨hjoins, hrelations⟩ := ih
    refine ⟨List.forall_mem_cons.2 ⟨⟨a, List.mem_cons_self, hattached⟩, fun k hk => ?_⟩,
      List.forall_mem_cons.2 ⟨⟨j, List.mem_cons_self, hattached⟩, fun b hb => ?_⟩⟩
    · obtain ⟨b, hb, hattached⟩ := hjoins k hk
      exact ⟨b, List.mem_cons_of_mem _ hb, hattached⟩
    · obtain ⟨k, hk, hattached⟩ := hrelations b hb
      exact ⟨k, List.mem_cons_of_mem _ hk, hattached⟩

/-- A compiled level selects from its table, and its joins are those of its attachments. -/
theorem select_parts {l : PlannedLevel} {position : Standing} {s : Select} (h : l.select n position = .ok s) :
    (∃ name label, s.source = .table name label) ∧ ∃ relations,
      attachments l.entity (tableAlias n) (n + 1) l.relations = .ok relations ∧
        s.joins = relations.map Attachment.join := by
  obtain ⟨relations, _, hrelations, _, rfl⟩ := PlannedLevel.select_eq_ok.1 h
  exact ⟨⟨_, _, placed_source ..⟩, relations, hrelations, placed_joins ..⟩

/-- **A compiled level nests as its plan does.** Its joins that stand behind one another are those of the plan. -/
theorem exists_chain_select_iff {l : PlannedLevel} {position : Standing} {s : Select} (h : l.select n position = .ok s)
    {kinds : List JoinKind} : (∃ chain, s.Chain chain ∧ chain.map Join.kind = kinds) ↔
      ∃ chain, l.Chain chain ∧ chain.map JoinedLevel.join = kinds := by
  induction kinds generalizing l n position s with
  | nil => exact iff_of_true ⟨[], .nil s, rfl⟩ ⟨[], .nil l, rfl⟩
  | cons kind kinds ih =>
    obtain ⟨⟨name, label, hsource⟩, relations, hrelations, hjoins⟩ := select_parts h
    obtain ⟨hleft, hright⟩ := attachedAs_of_attachments hrelations
    have hderived : ∀ j ∈ s.joins, ∃ inner label, j.source = .derived inner label := fun j hj => by
      rw [hjoins] at hj
      obtain ⟨a, ha, rfl⟩ := List.mem_map.1 hj
      obtain ⟨k, _, _, _, _, _, _, rfl⟩ := hright a ha
      exact ⟨_, _, rfl⟩
    constructor
    · rintro ⟨_ | ⟨j, chain⟩, hchain, hkinds⟩
      · cases hkinds
      obtain ⟨hkind, hrest⟩ := List.cons.inj hkinds
      obtain ⟨hj, inner, label, hinner, hbehind⟩ := (Select.chain_cons hsource hderived).1 hchain
      rw [hjoins] at hj
      obtain ⟨a, ha, rfl⟩ := List.mem_map.1 hj
      obtain ⟨k, hk, _, _, _, _, hlevel, rfl⟩ := hright a ha
      cases hinner
      obtain ⟨below, hbelow, hkinds⟩ := (ih hlevel).1 ⟨chain, (Select.chain_of_derived rfl rfl).1 hbehind, hrest⟩
      exact ⟨k :: below, .cons hk hbelow, congrArg₂ List.cons hkind hkinds⟩
    · rintro ⟨_, hchain, hkinds⟩
      cases hchain with
      | nil => cases hkinds
      | @cons _ j chain hj hchain =>
        obtain ⟨hkind, hrest⟩ := List.cons.inj hkinds
        obtain ⟨a, ha, _, _, _, _, hlevel, rfl⟩ := hleft j hj
        obtain ⟨below, hbelow, hkinds⟩ := (ih hlevel).2 ⟨chain, hchain, hrest⟩
        have hjoin := List.mem_map_of_mem (f := Attachment.join) ha
        rw [← hjoins] at hjoin
        refine ⟨_ :: below, .behind hjoin rfl ((Select.chain_of_derived rfl rfl).2 hbelow), ?_⟩
        exact congrArg₂ List.cons hkind hkinds

end Compiled

/-! ## Heights -/

section Heights

variable {table rows : String} {x : Expr} {limit offset : Option UInt64}

theorem height_compareExpr {column : Expr} {op : Operator} {sqlOp : BinaryOperator} {value : Value}
    (h : compareExpr column op sqlOp value = .ok x) : x.height = max column.height 1 + 1 := by
  unfold compareExpr at h
  split at h
  · cases h
  · cases h
    rfl

theorem height_conditionExpr {c : ColumnCondition} (h : conditionExpr table c = .ok x) : x.height ≤ 3 := by
  obtain ⟨field, op, value⟩ := c
  cases op with
  | compare comparison =>
    rw [height_compareExpr h]
    exact Nat.le_succ 2
  | like =>
    rw [height_compareExpr h]
    exact Nat.le_succ 2
  | ilike =>
    simp only [conditionExpr] at h
    split at h
    · cases h
    · cases h
      exact Nat.le_refl 3
  | oneOf =>
    cases h
    have hlist : heightOfAll ((listElements value).map .param) ≤ 1 :=
      heightOfAll_le.2 (List.forall_mem_map.2 fun _ _ => Nat.le_refl 1)
    have hboth : max 1 (heightOfAll ((listElements value).map .param)) ≤ 1 := Nat.max_le.2 ⟨Nat.le_refl 1, hlist⟩
    exact Nat.le_succ_of_le (Nat.succ_le_succ hboth)
  | isNull =>
    cases value with
    | int flag =>
      cases h
      exact Nat.le_succ 2
    | _ => cases h

/-- What an attachment adds to the payload of its level is no higher than a case. -/
theorem height_payload {label array : String} {rel : Relationship} {kind : JoinKind} {level : PlannedLevel}
    {inner : Select} (hx : x ∈ (attachment table label rel kind level inner rows array).payload) : x.height ≤ 3 := by
  simp only [attachment] at hx
  split at hx
  · rcases List.mem_pair.1 hx with rfl | rfl
    · exact Nat.le_add_left 1 2
    · cases rel.direction <;> exact Nat.le_refl 3
  · cases hx

/-- What stands in the select around a level: its key, the array of its payloads, and the tests of its window. -/
theorem height_exprs_folded {inner : Select} {output : Bool} (hx : x ∈ (folded inner rows output limit offset).exprs) :
    x.height ≤ 3 := by
  have hkey : (Expr.column rows keyColumn).height ≤ 3 := Nat.le_add_left 1 2
  rcases List.mem_append.1 hx with hx | hx
  · obtain ⟨item, hitem, rfl⟩ := List.mem_map.1 hx
    rcases List.mem_append.1 hitem with hitem | hitem
    · split at hitem
      · cases List.mem_singleton.1 hitem
        exact Nat.le_refl 3
      · cases hitem
    · cases List.mem_singleton.1 hitem
      exact hkey
  · have hrest : x ∈ windowConditions rows limit offset ++ [.column rows keyColumn] := hx
    rcases List.mem_append.1 hrest with hx | hx
    · obtain ⟨_, _, rfl⟩ := exists_of_mem_windowConditions rows hx
      exact Nat.le_succ 2
    · cases List.mem_singleton.1 hx
      exact hkey

theorem exists_column_of_mem_levelOrder {e : Entity} {sort : Option (EntityField × SortOrder)}
    (hx : x ∈ (levelOrder e sort table).map Prod.fst) : ∃ name, x = .column table name := by
  unfold levelOrder at hx
  split at hx
  · split at hx
    · exact ⟨_, List.mem_singleton.1 hx⟩
    · rcases List.mem_pair.1 hx with hx | hx <;> exact ⟨_, hx⟩
  · exact ⟨_, List.mem_singleton.1 hx⟩

section Placed

variable {e : Entity} {output grouped : Bool} {fields : List EntityField} {relations : List Attachment}
  {conditions : List Expr} {position : Standing} {sort : Option (EntityField × SortOrder)}

/-- What stands in the select of a level: its payload, columns of its table, the numbers of its rows, and the conditions
of its joins and its own. -/
theorem mem_exprs_placed (hx : x ∈ (placed (levelBase e output fields table relations conditions grouped) position table
      (levelOrder e sort table) limit offset).exprs) :
    x = .call "json_object" (fieldEntries table fields ++ relations.flatMap Attachment.payload) ∨
      (∃ name, x = .column table name) ∨ (∃ name, x = .rowNumber [.column table name] (levelOrder e sort table)) ∨
      x ∈ relations.map (fun a => a.join.condition) ∨ x ∈ conditions := by
  have hbase : ∀ item ∈ (levelBase e output fields table relations conditions grouped).items,
      item.1 = .call "json_object" (fieldEntries table fields ++ relations.flatMap Attachment.payload) := by
    intro item hitem
    simp only [levelBase] at hitem
    split at hitem
    · cases List.mem_singleton.1 hitem
      rfl
    · cases hitem
  rw [Select.exprs, placed_joins, placed_conditions, placed_groupBy] at hx
  rcases List.mem_append.1 hx with hx | hx
  · obtain ⟨item, hitem, rfl⟩ := List.mem_map.1 hx
    cases position with
    | root => exact .inl (hbase item hitem)
    | child column =>
      rcases List.mem_append.1 hitem with hitem | hitem
      · exact .inl (hbase item hitem)
      rcases List.mem_cons.1 hitem with rfl | hitem
      · exact .inr (.inl ⟨column, rfl⟩)
      · split at hitem
        · cases List.mem_singleton.1 hitem
          exact .inr (.inr (.inl ⟨column, rfl⟩))
        · cases hitem
  rcases List.mem_append.1 hx with hx | hx
  · obtain ⟨j, hj, rfl⟩ := List.mem_map.1 hx
    obtain ⟨a, ha, rfl⟩ := List.mem_map.1 hj
    exact .inr (.inr (.inr (.inl (List.mem_map_of_mem ha))))
  rcases List.mem_append.1 hx with hx | hx
  · exact .inr (.inr (.inr (.inr hx)))
  rcases List.mem_append.1 hx with hx | hx
  · simp only [levelBase] at hx
    split at hx
    · exact .inr (.inl ⟨_, List.mem_singleton.1 hx⟩)
    · cases hx
  · right
    left
    cases position with
    | root => exact exists_column_of_mem_levelOrder hx
    | child column =>
      rcases List.mem_cons.1 hx with hx | hx
      · exact ⟨column, hx⟩
      · exact exists_column_of_mem_levelOrder hx

theorem height_exprs_placed (hpayload : ∀ a ∈ relations, ∀ y ∈ a.payload, y.height ≤ 3)
    (honConditions : ∀ a ∈ relations, a.join.condition.height ≤ 2) (hconditions : ∀ c ∈ conditions, c.height ≤ 3)
    (hx : x ∈ (placed (levelBase e output fields table relations conditions grouped) position table
      (levelOrder e sort table) limit offset).exprs) : x.height ≤ 4 := by
  rcases mem_exprs_placed hx with rfl | ⟨_, rfl⟩ | ⟨_, rfl⟩ | hx | hx
  · refine Nat.succ_le_succ (heightOfAll_le.2 fun y hy => ?_)
    rcases List.mem_append.1 hy with hy | hy
    · obtain ⟨f, _, hy⟩ := List.mem_flatMap.1 hy
      rcases List.mem_pair.1 hy with rfl | rfl <;> exact Nat.le_add_left 1 2
    · obtain ⟨a, ha, hy⟩ := List.mem_flatMap.1 hy
      exact hpayload a ha y hy
  · exact Nat.le_add_left 1 3
  · have horder : orderHeight (levelOrder e sort table) ≤ 1 := orderHeight_le.2 fun y hy => by
      obtain ⟨_, rfl⟩ := exists_column_of_mem_levelOrder hy
      exact Nat.le_refl 1
    have hboth : max 1 (orderHeight (levelOrder e sort table)) ≤ 1 := Nat.max_le.2 ⟨Nat.le_refl 1, horder⟩
    exact Nat.le_trans (Nat.succ_le_succ hboth) (Nat.le_add_left 2 2)
  · obtain ⟨a, ha, rfl⟩ := List.mem_map.1 hx
    exact Nat.le_trans (honConditions a ha) (Nat.le_add_left 2 2)
  · exact Nat.le_succ_of_le (hconditions x hx)

end Placed

/-- No expression that stands in a compiled level is higher than an object of cases. -/
theorem height_exprs_select {l : PlannedLevel} {n : Nat} {position : Standing} {s : Select}
    (h : l.select n position = .ok s) (hx : x ∈ s.exprs) : x.height ≤ 4 := by
  obtain ⟨relations, conditions, hrelations, hconditions, rfl⟩ := PlannedLevel.select_eq_ok.1 h
  have hattached := (attachedAs_of_attachments hrelations).2
  refine height_exprs_placed (fun a ha y hy => ?_) (fun a ha => ?_) (fun c hc => ?_) hx
  · obtain ⟨_, _, _, _, _, _, _, rfl⟩ := hattached a ha
    exact height_payload hy
  · obtain ⟨_, _, _, _, _, _, _, rfl⟩ := hattached a ha
    exact Nat.le_refl 2
  · obtain ⟨_, _, hc⟩ := mem_of_mapM_eq_ok hconditions hc
    exact height_conditionExpr hc

/-- The two selects around the levels behind a level: each of them that joins, and the level itself. -/
theorem height_select_of_below {k : Nat} (hk : 3 ≤ k) {l : PlannedLevel} {n : Nat} {position : Standing} {s : Select}
    (h : l.select n position = .ok s) (hbelow : ∀ j ∈ l.relations, ∀ m column inner,
      j.level.select m (.child column) = .ok inner → inner.height ≤ k) : s.height ≤ k + 2 := by
  obtain ⟨⟨name, label, hsource⟩, relations, hrelations, hjoins⟩ := select_parts h
  refine Select.height_le_succ.2 ⟨fun x hx => ?_, fun source hs => ?_⟩
  · exact Nat.le_trans (height_exprs_select h hx) (Nat.succ_le_succ hk)
  rw [Select.sources, hsource, hjoins] at hs
  rcases List.mem_cons.1 hs with rfl | hs
  · exact Nat.zero_le _
  · obtain ⟨_, hjoin, rfl⟩ := List.mem_map.1 hs
    obtain ⟨a, ha, rfl⟩ := List.mem_map.1 hjoin
    obtain ⟨j, hj, m, inner, rows, array, hinner, rfl⟩ := (attachedAs_of_attachments hrelations).2 a ha
    refine Select.height_le_succ.2 ⟨fun x hx => Nat.le_trans (height_exprs_folded hx) hk, fun source hs => ?_⟩
    cases List.mem_singleton.1 hs
    exact hbelow j hj m _ inner hinner

/-- **Each join puts two selects around a level.** Where no more than `depth` joins of a plan stand behind one another,
the compiled level is no higher than two for each of them, one for itself and four for its expressions. -/
theorem height_select (depth : Nat) {l : PlannedLevel} (hdepth : ∀ chain, l.Chain chain → chain.length ≤ depth)
    {n : Nat} {position : Standing} {s : Select} (h : l.select n position = .ok s) : s.height ≤ 2 * depth + 5 := by
  induction depth generalizing l n position s with
  | zero =>
    refine height_select_of_below (Nat.le_refl 3) h fun j hj => ?_
    exact absurd (hdepth [j] (.cons hj (.nil _))) (Nat.not_succ_le_zero 0)
  | succ depth ih =>
    refine height_select_of_below (Nat.le_add_left 3 _) h fun j hj m column inner hinner => ?_
    exact ih (fun chain hchain => Nat.le_of_succ_le_succ (hdepth (j :: chain) (.cons hj hchain))) hinner

end Heights

/-! ## Queries -/

section Queries

variable {p : PlannedLevel} {q : Query}

/-- **A query nests as its plan does.** Its joins that stand behind one another are those of the plan. -/
theorem exists_chain_query_iff (h : p.query = .ok q) {kinds : List JoinKind} :
    (∃ chain, q.select.Chain chain ∧ chain.map Join.kind = kinds) ↔
      ∃ chain, p.Chain chain ∧ chain.map JoinedLevel.join = kinds := by
  obtain ⟨inner, hinner, rfl⟩ := PlannedLevel.query_eq_ok.1 h
  rw [← exists_chain_select_iff hinner]
  exact exists_congr fun chain => and_congr_left' (Select.chain_of_derived rfl rfl)

theorem height_query (depth : Nat) (hdepth : ∀ chain, p.Chain chain → chain.length ≤ depth) (h : p.query = .ok q) :
    q.select.height ≤ 2 * depth + 6 := by
  obtain ⟨inner, hinner, rfl⟩ := PlannedLevel.query_eq_ok.1 h
  refine Select.height_le_succ.2 ⟨fun x hx => ?_, fun source hs => ?_⟩
  · cases List.mem_singleton.1 hx
    exact Nat.le_add_left 5 _
  · cases List.mem_singleton.1 hs
    exact height_select depth hdepth hinner

end Queries

end TreeQuery
