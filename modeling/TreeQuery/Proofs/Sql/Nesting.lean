import TreeQuery.Proofs.Sql.Parts

/-!
# How deep selects nest

Two ways to measure a select: by the joins in it that stand behind one another (`Select.Chain`), and by its height,
which counts what lies between the select and the innermost expression in it (`Select.height`). A select is written by
writing what is in it, so its height is how deep the writing goes.

A select is no higher than its own expressions and sources let it be (`Select.height_le_succ`).
-/

namespace TreeQuery.Sql

/-- Joins in a select, each behind the one before it: the first is a join of the select, and any other one of the
derived table that the one before it leads to. What a derived table selects from counts as part of it. -/
inductive Select.Chain : Select → List (Join Select) → Prop
  | nil (s : Select) : Chain s []
  | last {s : Select} {j : Join Select} (hj : j ∈ s.joins) : Chain s [j]
  | within {s inner : Select} {label : String} {chain : List (Join Select)}
      (hsource : s.source = .derived inner label) (h : Chain inner chain) : Chain s chain
  | behind {s inner : Select} {j : Join Select} {label : String} {chain : List (Join Select)} (hj : j ∈ s.joins)
      (hsource : j.source = .derived inner label) (h : Chain inner chain) : Chain s (j :: chain)

/-- A derived table without joins has the joins of what it selects from. -/
theorem Select.chain_of_derived {s inner : Select} {label : String} (hsource : s.source = .derived inner label)
    (hjoins : s.joins = []) {chain : List (Join Select)} : s.Chain chain ↔ inner.Chain chain := by
  constructor
  · intro h
    cases h with
    | nil => exact .nil inner
    | last hj | behind hj => rw [hjoins] at hj; cases hj
    | within hsource' h =>
      cases hsource.symm.trans hsource'
      exact h
  · exact .within hsource

/-- In a select from a table whose joins are all derived, joins stand behind each of its joins as they do in the derived
table. -/
theorem Select.chain_cons {s : Select} {name label : String} (hsource : s.source = .table name label)
    (hjoins : ∀ j ∈ s.joins, ∃ inner label, j.source = .derived inner label) {j : Join Select}
    {chain : List (Join Select)} : s.Chain (j :: chain) ↔
      j ∈ s.joins ∧ ∃ inner label, j.source = .derived inner label ∧ inner.Chain chain := by
  constructor
  · intro h
    cases h with
    | last hj =>
      obtain ⟨inner, label, hderived⟩ := hjoins j hj
      exact ⟨hj, inner, label, hderived, .nil inner⟩
    | within hsource' _ => cases hsource.symm.trans hsource'
    | behind hj hderived h => exact ⟨hj, _, _, hderived, h⟩
  · rintro ⟨hj, inner, label, hderived, h⟩
    exact .behind hj hderived h

/-! ## Heights -/

mutual

/-- How deep an expression nests. -/
def Expr.height : Expr → Nat
  | .column _ _ | .param _ | .text _ | .int _ => 1
  | .call _ arguments => heightOfAll arguments + 1
  | .binary left _ right => max left.height right.height + 1
  | .isNull operand _ => operand.height + 1
  | .inList operand list => max operand.height (heightOfAll list) + 1
  | .case condition result otherwise => max condition.height (max result.height (elseHeight otherwise)) + 1
  | .rowNumber partitionBy orderBy => max (heightOfAll partitionBy) (orderHeight orderBy) + 1

/-- How deep some expressions nest. -/
def heightOfAll : List Expr → Nat
  | [] => 0
  | e :: rest => max e.height (heightOfAll rest)

/-- How deep the last branch of a case nests. -/
def elseHeight : Option Expr → Nat
  | none => 0
  | some e => e.height

/-- How deep some order terms nest. -/
def orderHeight : List (Expr × SortOrder) → Nat
  | [] => 0
  | (e, _) :: rest => max e.height (orderHeight rest)

end

mutual

/-- How deep a select nests: the selects and expressions inside one another, itself included. -/
def Select.height : Select → Nat
  | ⟨items, source, joins, conditions, groupBy, orderBy, _, _⟩ =>
    max (heightOfAll (items.map Prod.fst)) (max (sourceHeight source) (max (joinsHeight joins)
      (max (heightOfAll conditions) (max (heightOfAll groupBy) (orderHeight orderBy))))) + 1

/-- How deep a source nests. -/
def sourceHeight : Source Select → Nat
  | .table _ _ => 0
  | .derived query _ => query.height

/-- How deep some joins nest. -/
def joinsHeight : List (Join Select) → Nat
  | [] => 0
  | ⟨_, source, condition⟩ :: rest => max (sourceHeight source) (max condition.height (joinsHeight rest))

end

variable {n : Nat}

theorem heightOfAll_le {es : List Expr} : heightOfAll es ≤ n ↔ ∀ e ∈ es, e.height ≤ n := by
  induction es with
  | nil => exact iff_of_true (Nat.zero_le n) nofun
  | cons e rest ih => rw [heightOfAll, Nat.max_le, ih, List.forall_mem_cons]

theorem orderHeight_le {terms : List (Expr × SortOrder)} :
    orderHeight terms ≤ n ↔ ∀ e ∈ terms.map Prod.fst, e.height ≤ n := by
  induction terms with
  | nil => exact iff_of_true (Nat.zero_le n) nofun
  | cons term rest ih =>
    obtain ⟨e, order⟩ := term
    rw [orderHeight, Nat.max_le, ih, List.map_cons, List.forall_mem_cons]

theorem joinsHeight_le {joins : List (Join Select)} : joinsHeight joins ≤ n ↔
    (∀ e ∈ joins.map Join.condition, e.height ≤ n) ∧ ∀ source ∈ joins.map Join.source, sourceHeight source ≤ n := by
  induction joins with
  | nil => exact iff_of_true (Nat.zero_le n) ⟨nofun, nofun⟩
  | cons j rest ih =>
    obtain ⟨kind, source, condition⟩ := j
    rw [joinsHeight, Nat.max_le, Nat.max_le, ih, List.map_cons, List.map_cons, List.forall_mem_cons,
      List.forall_mem_cons]
    exact ⟨fun ⟨hs, hc, hcs, hss⟩ => ⟨⟨hc, hcs⟩, hs, hss⟩, fun ⟨⟨hc, hcs⟩, hs, hss⟩ => ⟨hs, hc, hcs, hss⟩⟩

/-- A select nests one deeper than its own expressions and its sources. -/
theorem Select.height_le_succ {s : Select} : s.height ≤ n + 1 ↔
    (∀ e ∈ s.exprs, e.height ≤ n) ∧ ∀ source ∈ s.sources, sourceHeight source ≤ n := by
  obtain ⟨items, source, joins, conditions, groupBy, orderBy, limit, offset⟩ := s
  simp only [height, exprs, sources, Nat.add_le_add_iff_right, Nat.max_le, heightOfAll_le, orderHeight_le,
    joinsHeight_le, List.forall_mem_append, List.forall_mem_cons]
  constructor
  · rintro ⟨hitems, hsource, ⟨honConditions, hjoined⟩, hconditions, hgroups, horders⟩
    exact ⟨⟨hitems, honConditions, hconditions, hgroups, horders⟩, hsource, hjoined⟩
  · rintro ⟨⟨hitems, honConditions, hconditions, hgroups, horders⟩, hsource, hjoined⟩
    exact ⟨hitems, hsource, ⟨honConditions, hjoined⟩, hconditions, hgroups, horders⟩

end TreeQuery.Sql
