import Mathlib.Data.List.Basic
import TreeQuery.Proofs.Compilation
import TreeQuery.Proofs.Sql.Parts

/-!
# Searching compiled levels

What a search finds among the expressions of a compiled level, if it overlooks what all levels are put together with:
columns, texts, and all that is made of other expressions, but objects (`Overlooks`). In a level it finds the object of
the payload, what is in the joins, and what is in the conditions (`filterMap_select`); in a join it finds what is in the
level behind it, and in the window of that (`filterMap_joinsParts`).
-/

namespace TreeQuery

open Outcome Sql

variable {α : Type}

/-- A search of expressions that overlooks columns, texts, and all that is made of other expressions, but objects. -/
structure Overlooks (f : Expr → Option α) : Prop where
  column : ∀ table name, f (.column table name) = none
  text : ∀ s, f (.text s) = none
  call : ∀ function arguments, function ≠ "json_object" → f (.call function arguments) = none
  binary : ∀ left op right, f (.binary left op right) = none
  isNull : ∀ operand negated, f (.isNull operand negated) = none
  inList : ∀ operand list, f (.inList operand list) = none
  case : ∀ condition result otherwise, f (.case condition result otherwise) = none
  rowNumber : ∀ partitionBy orderBy, f (.rowNumber partitionBy orderBy) = none

theorem partsOfAll_append (as bs : List Expr) : partsOfAll (as ++ bs) = partsOfAll as ++ partsOfAll bs := by
  rw [partsOfAll_eq_flatMap, partsOfAll_eq_flatMap, partsOfAll_eq_flatMap, List.flatMap_append]

namespace Overlooks

variable {f : Expr → Option α} (hf : Overlooks f)

include hf

/-! ## Expressions -/

theorem filterMap_column (table name : String) : (Expr.column table name).parts.filterMap f = [] := by
  simp [Expr.parts, hf.column]

theorem filterMap_fieldEntries (table : String) (fields : List EntityField) :
    (partsOfAll (fieldEntries table fields)).filterMap f = [] := by
  induction fields with
  | nil => rfl
  | cons field rest ih =>
    rw [← ih]
    simp [fieldEntries, partsOfAll, Expr.parts, hf.text, hf.column]

theorem filterMap_levelOrder (e : Entity) (sort : Option (EntityField × SortOrder)) (table : String) :
    (orderParts (levelOrder e sort table)).filterMap f = [] := by
  unfold levelOrder
  split
  · split <;> simp [orderParts, hf.filterMap_column]
  · simp [orderParts, hf.filterMap_column]

theorem filterMap_partnerValue (direction : Direction) (array : String) :
    (partnerValue direction array).parts.filterMap f = [] := by
  cases direction <;>
    simp [partnerValue, Expr.parts, partsOfAll, elseParts, hf.column, hf.text, hf.isNull, hf.case, hf.call]

theorem filterMap_payload (table label : String) (relationship : Relationship) (kind : JoinKind) (level : PlannedLevel)
    (inner : Select) (rows array : String) :
    (partsOfAll (attachment table label relationship kind level inner rows array).payload).filterMap f = [] := by
  unfold attachment
  split
  · simp [partsOfAll, Expr.parts, hf.text, hf.filterMap_partnerValue]
  · rfl

/-- A search for anything but literals finds nothing in a window. -/
theorem filterMap_windowConditions (hint : ∀ n, f (.int n) = none) (rows : String) (limit offset : Option UInt64) :
    (partsOfAll (windowConditions rows limit offset)).filterMap f = [] := by
  unfold windowConditions
  split
  · simp only
    split <;> simp [partsOfAll, Expr.parts, hf.column, hf.binary, hint]
  · rfl

/-- A search for anything but parameters finds nothing in a condition. -/
theorem filterMap_conditionExpr (hparam : ∀ value, f (.param value) = none) {table : String} {c : ColumnCondition}
    {e : Expr} (h : conditionExpr table c = .ok e) : e.parts.filterMap f = [] := by
  have hcompare {op : Operator} {sqlOp : BinaryOperator} {value : Value} {column : String}
      (h : compareExpr (.column table column) op sqlOp value = .ok e) : e.parts.filterMap f = [] := by
    unfold compareExpr at h
    split at h
    · cases h
    · cases h
      simp [Expr.parts, hf.binary, hf.column, hparam]
  obtain ⟨field, op, value⟩ := c
  cases op with
  | compare comparison => exact hcompare h
  | like => exact hcompare h
  | ilike =>
    simp only [conditionExpr] at h
    split at h
    · cases h
    · cases h
      simp [Expr.parts, partsOfAll, hf.binary, hf.column, hf.call, hparam]
  | oneOf =>
    cases h
    have hlist (values : List Value) : (partsOfAll (values.map .param)).filterMap f = [] := by
      induction values with
      | nil => rfl
      | cons value rest ih => simp [partsOfAll, Expr.parts, hparam, ih]
    simp [Expr.parts, hf.inList, hf.column, hlist]
  | isNull =>
    cases value with
    | int flag => cases h; simp [Expr.parts, hf.isNull, hf.column]
    | _ => cases h

theorem filterMap_conditions (hparam : ∀ value, f (.param value) = none) {table : String}
    {conditions : List ColumnCondition} {es : List Expr} (h : conditions.mapM (conditionExpr table) = .ok es) :
    (partsOfAll es).filterMap f = [] := by
  rw [partsOfAll_eq_flatMap, List.filterMap_flatMap, List.flatMap_eq_nil_iff]
  intro e he
  obtain ⟨c, _, hc⟩ := mem_of_mapM_eq_ok h he
  exact hf.filterMap_conditionExpr hparam hc

/-! ## Selects -/

section Selects

variable {e : Entity} {output grouped : Bool} {fields : List EntityField} {table : String}
  {relations : List Attachment} {conditions : List Expr} {limit offset : Option UInt64}

omit hf in
theorem filterMap_parts (s : Select) : s.parts.filterMap f =
    (partsOfAll (s.items.map Prod.fst)).filterMap f ++ ((sourceParts s.source).filterMap f ++
      ((joinsParts s.joins).filterMap f ++ ((partsOfAll s.conditions).filterMap f ++
        ((partsOfAll s.groupBy).filterMap f ++ (orderParts s.orderBy).filterMap f)))) := by
  obtain ⟨items, source, joins, conditions, groupBy, orderBy, limit, offset⟩ := s
  simp only [Select.parts, List.filterMap_append]

/-- In a level a search finds the object of its payload, what is in its joins and what is in its conditions. -/
theorem filterMap_levelBase (hpayload : (partsOfAll (relations.flatMap Attachment.payload)).filterMap f = []) :
    (levelBase e output fields table relations conditions grouped).parts.filterMap f =
      (if output then (f (.call "json_object"
        (fieldEntries table fields ++ relations.flatMap Attachment.payload))).toList else []) ++
        ((joinsParts (relations.map Attachment.join)).filterMap f ++ (partsOfAll conditions).filterMap f) := by
  have harguments :
      (partsOfAll (fieldEntries table fields ++ relations.flatMap Attachment.payload)).filterMap f = [] := by
    rw [partsOfAll_append, List.filterMap_append, hf.filterMap_fieldEntries, hpayload, List.append_nil]
  have hgroup : (partsOfAll (if grouped then [.column table e.identity] else [])).filterMap f = [] := by
    cases grouped <;> simp [partsOfAll, hf.filterMap_column]
  rw [filterMap_parts]
  simp only [levelBase, hgroup, sourceParts, orderParts, List.filterMap_nil, List.nil_append, List.append_nil]
  cases output with
  | false => rfl
  | true =>
    simp only [if_true, List.map_cons, List.map_nil, partsOfAll, Expr.parts, List.append_nil]
    rw [← List.singleton_append, List.filterMap_append, harguments, List.append_nil]
    cases hobject : f (.call "json_object" (fieldEntries table fields ++ relations.flatMap Attachment.payload)) <;>
      simp [hobject]

/-- Where a level stands a search finds nothing more. -/
theorem filterMap_placed {base : Select} (hbase : base.orderBy = []) (position : Standing)
    (sort : Option (EntityField × SortOrder)) :
    (placed base position table (levelOrder e sort table) limit offset).parts.filterMap f =
      base.parts.filterMap f := by
  have horder := hf.filterMap_levelOrder e sort table
  rw [filterMap_parts, filterMap_parts base, hbase, orderParts]
  cases position with
  | root => simp only [placed, horder, List.filterMap_nil]
  | child column =>
    have hnumbers : (partsOfAll ((if isPaged limit offset then
        [(Expr.rowNumber [.column table column] (levelOrder e sort table), some rowNumberColumn)] else []).map
          Prod.fst)).filterMap f = [] := by
      split <;> simp [partsOfAll, Expr.parts, hf.column, hf.rowNumber, horder]
    simp only [placed, List.map_append, List.map_cons, partsOfAll_append, partsOfAll, orderParts,
      List.filterMap_append, hf.filterMap_column, hnumbers, horder, List.append_nil, List.filterMap_nil]

/-- Around a level a search finds what is in its window. -/
theorem filterMap_folded (inner : Select) (rows : String) (output : Bool) (limit offset : Option UInt64) :
    (folded inner rows output limit offset).parts.filterMap f =
      inner.parts.filterMap f ++ (partsOfAll (windowConditions rows limit offset)).filterMap f := by
  have hitems : (partsOfAll ((folded inner rows output limit offset).items.map Prod.fst)).filterMap f = [] := by
    cases output <;> simp [folded, partsOfAll, Expr.parts, hf.column, hf.call]
  rw [filterMap_parts, hitems]
  simp [folded, sourceParts, joinsParts, orderParts, partsOfAll, hf.filterMap_column]

/-- In the join of a relation a search finds what is in the level behind it, and in the window of that. -/
theorem filterMap_joinsParts (table label : String) (relationship : Relationship) (kind : JoinKind)
    (level : PlannedLevel) (inner : Select) (rows array : String) (later : List (Join Select)) :
    (joinsParts ((attachment table label relationship kind level inner rows array).join :: later)).filterMap f =
      inner.parts.filterMap f ++ ((partsOfAll (windowConditions rows level.limit level.offset)).filterMap f ++
        (joinsParts later).filterMap f) := by
  rw [← List.append_assoc, ← hf.filterMap_folded inner rows level.output level.limit level.offset]
  simp [attachment, joinsParts, sourceParts, Expr.parts, hf.binary, hf.column]

/-- A search that overlooks literals as well finds what is in the level behind a relation. -/
theorem filterMap_joinsParts_of_int (hint : ∀ n, f (.int n) = none) (table label : String)
    (relationship : Relationship) (kind : JoinKind) (level : PlannedLevel) (inner : Select) (rows array : String)
    (later : List (Join Select)) :
    (joinsParts ((attachment table label relationship kind level inner rows array).join :: later)).filterMap f =
      inner.parts.filterMap f ++ (joinsParts later).filterMap f := by
  rw [hf.filterMap_joinsParts, hf.filterMap_windowConditions hint, List.nil_append]

/-- What relations add to the payload of their level holds nothing that a search finds. -/
theorem filterMap_payloads {joins : List (JoinedLevel PlannedLevel)} {entity : Entity} {n : Nat}
    (h : attachments entity table n joins = .ok relations) :
    (partsOfAll (relations.flatMap Attachment.payload)).filterMap f = [] := by
  induction joins generalizing n relations with
  | nil => cases h; rfl
  | cons j rest ih =>
    obtain ⟨label, rel, kind, level⟩ := j
    obtain ⟨_, inner, later, _, hlater, rfl⟩ := attachments_cons_eq_ok.1 h
    rw [List.flatMap_cons, partsOfAll_append, List.filterMap_append, hf.filterMap_payload, ih hlater, List.append_nil]

/-- In the select of a level a search finds the object of its payload, what is in its joins and what is in its
conditions. -/
theorem filterMap_select {l : PlannedLevel} {n : Nat} {position : Standing} {s : Select}
    (h : l.select n position = .ok s) : ∃ as cs,
      attachments l.entity (tableAlias n) (n + 1) l.relations = .ok as ∧
        l.conditions.mapM (conditionExpr (tableAlias n)) = .ok cs ∧
        s.parts.filterMap f = (if l.output then (f (.call "json_object"
          (fieldEntries (tableAlias n) l.fields ++ as.flatMap Attachment.payload))).toList else []) ++
          ((joinsParts (as.map Attachment.join)).filterMap f ++ (partsOfAll cs).filterMap f) := by
  obtain ⟨as, cs, has, hcs, rfl⟩ := PlannedLevel.select_eq_ok.1 h
  exact ⟨as, cs, has, hcs, (hf.filterMap_placed rfl position l.sort).trans
    (hf.filterMap_levelBase (hf.filterMap_payloads has))⟩

/-- A search that overlooks objects as well finds what is in the joins and in the conditions. -/
theorem filterMap_select_of_object (hobject : ∀ arguments, f (.call "json_object" arguments) = none) {l : PlannedLevel}
    {n : Nat} {position : Standing} {s : Select} (h : l.select n position = .ok s) : ∃ as cs,
      attachments l.entity (tableAlias n) (n + 1) l.relations = .ok as ∧
        l.conditions.mapM (conditionExpr (tableAlias n)) = .ok cs ∧
        s.parts.filterMap f = (joinsParts (as.map Attachment.join)).filterMap f ++ (partsOfAll cs).filterMap f := by
  obtain ⟨as, cs, has, hcs, hfound⟩ := hf.filterMap_select h
  refine ⟨as, cs, has, hcs, hfound.trans ?_⟩
  rw [hobject]
  cases l.output <;> rfl

theorem filterMap_documentSelect (inner : Select) (rows : String) :
    (documentSelect inner rows).parts.filterMap f = inner.parts.filterMap f := by
  rw [filterMap_parts]
  simp [documentSelect, Select.ofSource, sourceParts, joinsParts, orderParts, partsOfAll, Expr.parts, hf.binary,
    hf.text, hf.call, hf.column]

end Selects

end Overlooks

end TreeQuery
