import Mathlib.Data.List.Nodup
import Std.Data.String.ToNat
import TreeQuery.Proofs.Compilation
import TreeQuery.Proofs.Sql.Parts

/-!
# Aliases of compiled queries

The aliases that a compiled level introduces, in the derived tables of its relations and in those behind them, are
those that the counter of the level runs through (`labels_select`); so in a query no alias is introduced twice
(`nodup_labels_query`).
-/

namespace TreeQuery

open Outcome Sql

theorem tableAlias_injective : Function.Injective tableAlias := by
  intro m n h
  have hdigits : toString m = toString n := (String.append_right_inj "t").1 h
  exact Nat.repr_injective hdigits

theorem joinsLabels_cons (j : Join Select) (joins : List (Join Select)) :
    joinsLabels (j :: joins) = sourceLabels j.source ++ joinsLabels joins := rfl

theorem sourceLabels_attachment (table label : String) (rel : Relationship) (kind : JoinKind) (level : PlannedLevel)
    (inner : Select) (rows array : String) :
    sourceLabels (attachment table label rel kind level inner rows array).join.source =
      inner.labels ++ [rows, array] := by
  simp only [attachment, sourceLabels, folded, Select.labels, joinsLabels, List.append_nil, List.append_assoc,
    List.cons_append, List.nil_append]

mutual

/-- A level introduces the aliases that its counter runs through. -/
theorem labels_select : ∀ (l : PlannedLevel) {n : Nat} {position : Standing} {s : Select},
    l.select n position = .ok s → s.labels = (List.range' n l.aliasCount).map tableAlias
  | ⟨e, output, fields, conditions, sort, limit, offset, relations⟩, n, position, s, h => by
    obtain ⟨as, cs, has, _, rfl⟩ := PlannedLevel.select_eq_ok.1 h
    have hlater : joinsLabels (as.map Attachment.join) =
        (List.range' (n + 1) (relationAliasCount relations)).map tableAlias := labels_attachments relations has
    rw [Select.labels_eq, placed_source, placed_joins, PlannedLevel.aliasCount, Nat.add_comm 1, List.range'_succ,
      List.map_cons, ← hlater]
    rfl

theorem labels_attachments : ∀ (joins : List (JoinedLevel PlannedLevel)) {entity : Entity} {table : String} {n : Nat}
    {relations : List Attachment}, attachments entity table n joins = .ok relations →
      joinsLabels (relations.map Attachment.join) = (List.range' n (relationAliasCount joins)).map tableAlias
  | [], _, _, _, _, h => by cases h; rfl
  | ⟨label, rel, kind, level⟩ :: rest, entity, table, n, _, h => by
    obtain ⟨_, inner, later, hinner, hlater, rfl⟩ := attachments_cons_eq_ok.1 h
    have hhead : inner.labels = (List.range' n level.aliasCount).map tableAlias := labels_select level hinner
    have hrest : joinsLabels (later.map Attachment.join) =
        (List.range' (n + level.aliasCount + 2) (relationAliasCount rest)).map tableAlias :=
      labels_attachments rest hlater
    have hsplit : List.range' n (level.aliasCount + 2 + relationAliasCount rest) =
        List.range' n level.aliasCount ++ (n + level.aliasCount) :: (n + level.aliasCount + 1) ::
          List.range' (n + level.aliasCount + 2) (relationAliasCount rest) := by
      rw [Nat.add_assoc, ← List.range'_append_1, Nat.add_comm 2, List.range'_succ, List.range'_succ]
    rw [List.map_cons, joinsLabels_cons, hrest, sourceLabels_attachment, hhead, relationAliasCount, hsplit]
    simp only [List.map_append, List.map_cons, List.append_assoc, List.cons_append, List.nil_append]

end

theorem labels_query {l : PlannedLevel} {q : Query} (h : l.query = .ok q) :
    q.select.labels = (List.range' 0 (l.aliasCount + 1)).map tableAlias := by
  obtain ⟨inner, hinner, rfl⟩ := PlannedLevel.query_eq_ok.1 h
  have hlabels : inner.labels = (List.range' 0 l.aliasCount).map tableAlias := labels_select l hinner
  rw [List.range'_1_concat, List.map_append, ← hlabels, Nat.zero_add]
  exact List.append_nil _

/-- No alias is introduced twice in a query. -/
theorem nodup_labels_query {l : PlannedLevel} {q : Query} (h : l.query = .ok q) : q.select.labels.Nodup := by
  rw [labels_query h]
  exact List.Nodup.map tableAlias_injective List.nodup_range'

end TreeQuery
