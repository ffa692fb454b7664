import TreeQuery.Proofs.Sql.Parts
import TreeQuery.Sql.Statement

/-!
# Changing the bound values of a select

`Select.mapParams f` is a select with `f` applied to every value that it binds. The pieces that it is written with
change in the same way (`Select.pieces_mapParams`), so its text stays as it is and its parameters are changed by `f`
(`statement_mapParams`).
-/

namespace TreeQuery.Sql

variable (f : Value → Value)

/-! ## The change -/

mutual

/-- An expression with `f` applied to every value that it binds. -/
def Expr.mapParams : Expr → Expr
  | .column table name => .column table name
  | .param value => .param (f value)
  | .text s => .text s
  | .int n => .int n
  | .call function arguments => .call function (mapParamsOfAll arguments)
  | .binary left operator right => .binary left.mapParams operator right.mapParams
  | .isNull operand negated => .isNull operand.mapParams negated
  | .inList operand list => .inList operand.mapParams (mapParamsOfAll list)
  | .case condition result otherwise => .case condition.mapParams result.mapParams (elseMapParams otherwise)
  | .rowNumber partitionBy orderBy => .rowNumber (mapParamsOfAll partitionBy) (orderMapParams orderBy)

/-- Some expressions with `f` applied to every value that they bind. -/
def mapParamsOfAll : List Expr → List Expr
  | [] => []
  | e :: rest => e.mapParams :: mapParamsOfAll rest

/-- The last branch of a case with `f` applied to every value that it binds. -/
def elseMapParams : Option Expr → Option Expr
  | none => none
  | some e => some e.mapParams

/-- Some order terms with `f` applied to every value that they bind. -/
def orderMapParams : List (Expr × SortOrder) → List (Expr × SortOrder)
  | [] => []
  | (e, order) :: rest => (e.mapParams, order) :: orderMapParams rest

end

/-- A result column with `f` applied to every value that it binds. -/
def itemMapParams : Expr × Option String → Expr × Option String
  | (e, label) => (e.mapParams f, label)

mutual

/-- A select with `f` applied to every value that it binds. -/
def Select.mapParams : Select → Select
  | ⟨items, source, joins, conditions, groupBy, orderBy, limit, offset⟩ =>
    ⟨items.map (itemMapParams f), sourceMapParams source, joinsMapParams joins, conditions.map (Expr.mapParams f),
      mapParamsOfAll f groupBy, orderMapParams f orderBy, limit, offset⟩

/-- A source with `f` applied to every value that it binds. -/
def sourceMapParams : Source Select → Source Select
  | .table name label => .table name label
  | .derived query label => .derived query.mapParams label

/-- Some joins with `f` applied to every value that they bind. -/
def joinsMapParams : List (Join Select) → List (Join Select)
  | [] => []
  | ⟨kind, source, condition⟩ :: rest =>
    ⟨kind, sourceMapParams source, condition.mapParams f⟩ :: joinsMapParams rest

end

/-- A piece with `f` applied to the value that it binds. -/
def Piece.mapValue : Piece → Piece
  | .text s => .text s
  | .placeholder value => .placeholder (f value)

variable {f}

theorem mapParamsOfAll_eq_map : ∀ es : List Expr, mapParamsOfAll f es = es.map (Expr.mapParams f)
  | [] => rfl
  | e :: rest => by rw [mapParamsOfAll, mapParamsOfAll_eq_map rest, List.map_cons]

/-! ## The pieces of a changed select -/

section Pieces

@[simp] theorem mapValue_text (s : String) : (Piece.text s).mapValue f = .text s := rfl

theorem map_joinPieces (separator : String) : ∀ lists : List (List Piece),
    (joinPieces separator lists).map (Piece.mapValue f) =
      joinPieces separator (lists.map (List.map (Piece.mapValue f)))
  | [] => rfl
  | [_] => rfl
  | pieces :: next :: rest => by
    have ih := map_joinPieces separator (next :: rest)
    simp only [joinPieces, List.map_cons, List.map_append, mapValue_text] at ih ⊢
    rw [ih]

theorem map_parenthesised (pieces : List Piece) :
    (parenthesised pieces).map (Piece.mapValue f) = parenthesised (pieces.map (Piece.mapValue f)) := by
  simp only [parenthesised, List.map_cons, mapValue_text, List.map_append, List.map_nil]

theorem map_clausePieces (keyword separator : String) (terms : List (List Piece)) :
    (clausePieces keyword separator terms).map (Piece.mapValue f) =
      clausePieces keyword separator (terms.map (List.map (Piece.mapValue f))) := by
  cases terms with
  | nil => rfl
  | cons pieces rest =>
    simp only [clausePieces, List.isEmpty_cons, List.map_cons, Bool.false_eq_true, ↓reduceIte, mapValue_text]
    rw [map_joinPieces, List.map_cons]

theorem map_windowPieces (partitionBy orderBy : List (List Piece)) :
    (windowPieces partitionBy orderBy).map (Piece.mapValue f) =
      windowPieces (partitionBy.map (List.map (Piece.mapValue f))) (orderBy.map (List.map (Piece.mapValue f))) := by
  unfold windowPieces
  rw [map_joinPieces, List.map_append]
  cases partitionBy <;> cases orderBy <;>
    simp [map_joinPieces]

theorem isOperation_mapParams (e : Expr) : (e.mapParams f).isOperation = e.isOperation := by
  cases e <;> rfl

theorem map_operandPieces (e : Expr) (pieces : List Piece) :
    (operandPieces e pieces).map (Piece.mapValue f) =
      operandPieces (e.mapParams f) (pieces.map (Piece.mapValue f)) := by
  unfold operandPieces
  rw [isOperation_mapParams]
  split
  · exact map_parenthesised pieces
  · rfl

mutual

/-- A changed expression is written with the changed pieces. -/
theorem Expr.pieces_mapParams : ∀ e : Expr, (e.mapParams f).pieces = e.pieces.map (Piece.mapValue f)
  | .column _ _ | .param _ | .text _ | .int _ => rfl
  | .call _ arguments => by
    simp only [Expr.mapParams, Expr.pieces, List.map_cons, mapValue_text, map_parenthesised, map_joinPieces,
      piecesOfAll_mapParams arguments]
  | .binary left _ right => by
    simp only [Expr.mapParams, Expr.pieces, List.map_append, List.map_cons, mapValue_text, map_operandPieces,
      Expr.pieces_mapParams left, Expr.pieces_mapParams right]
  | .isNull operand _ => by
    simp only [Expr.mapParams, Expr.pieces, List.map_append, List.map_cons, mapValue_text, List.map_nil,
      map_operandPieces, Expr.pieces_mapParams operand]
  | .inList operand list => by
    simp only [Expr.mapParams, Expr.pieces, List.map_append, List.map_cons, mapValue_text, map_operandPieces,
      map_parenthesised, map_joinPieces, Expr.pieces_mapParams operand, piecesOfAll_mapParams list]
  | .case condition result otherwise => by
    simp only [Expr.mapParams, Expr.pieces, List.map_append, List.map_cons, mapValue_text, List.map_nil,
      Expr.pieces_mapParams condition, Expr.pieces_mapParams result, elsePieces_mapParams otherwise]
  | .rowNumber partitionBy orderBy => by
    simp only [Expr.mapParams, Expr.pieces, List.map_cons, mapValue_text, map_parenthesised, map_windowPieces,
      piecesOfAll_mapParams partitionBy, orderPieces_mapParams orderBy]

theorem piecesOfAll_mapParams : ∀ es : List Expr,
    piecesOfAll (mapParamsOfAll f es) = (piecesOfAll es).map (List.map (Piece.mapValue f))
  | [] => rfl
  | e :: rest => by
    simp only [mapParamsOfAll, piecesOfAll, List.map_cons, Expr.pieces_mapParams e, piecesOfAll_mapParams rest]

theorem elsePieces_mapParams : ∀ otherwise : Option Expr,
    elsePieces (elseMapParams f otherwise) = (elsePieces otherwise).map (Piece.mapValue f)
  | none => rfl
  | some e => by simp only [elseMapParams, elsePieces, List.map_cons, mapValue_text, Expr.pieces_mapParams e]

theorem orderPieces_mapParams : ∀ terms : List (Expr × SortOrder),
    orderPieces (orderMapParams f terms) = (orderPieces terms).map (List.map (Piece.mapValue f))
  | [] => rfl
  | (e, _) :: rest => by
    simp only [orderMapParams, orderPieces, List.map_cons, List.map_append, mapValue_text, List.map_nil,
      Expr.pieces_mapParams e, orderPieces_mapParams rest]

end

theorem itemPieces_mapParams : ∀ item : Expr × Option String,
    itemPieces (itemMapParams f item) = (itemPieces item).map (Piece.mapValue f)
  | (e, none) => Expr.pieces_mapParams e
  | (e, some _) => by
    simp only [itemMapParams, itemPieces, List.map_append, List.map_cons, mapValue_text, List.map_nil,
      Expr.pieces_mapParams e]

theorem conditionPieces_mapParams (e : Expr) :
    operandPieces (e.mapParams f) (e.mapParams f).pieces = (operandPieces e e.pieces).map (Piece.mapValue f) := by
  rw [map_operandPieces, Expr.pieces_mapParams]

mutual

/-- A changed select is written with the changed pieces. -/
theorem Select.pieces_mapParams : ∀ s : Select, (s.mapParams f).pieces = s.pieces.map (Piece.mapValue f)
  | ⟨items, source, joins, conditions, groupBy, orderBy, _, _⟩ => by
    simp only [Select.mapParams, Select.pieces, List.map_append, List.map_cons, mapValue_text, List.map_nil,
      map_joinPieces, map_clausePieces, List.map_map, sourcePieces_mapParams source, joinsPieces_mapParams joins,
      piecesOfAll_mapParams groupBy, orderPieces_mapParams orderBy, Function.comp_def, itemPieces_mapParams,
      conditionPieces_mapParams]

theorem sourcePieces_mapParams : ∀ source : Source Select,
    sourcePieces (sourceMapParams f source) = (sourcePieces source).map (Piece.mapValue f)
  | .table _ _ => rfl
  | .derived query _ => by
    simp only [sourceMapParams, sourcePieces, List.map_append, List.map_cons, mapValue_text, List.map_nil,
      map_parenthesised, Select.pieces_mapParams query]

theorem joinsPieces_mapParams : ∀ joins : List (Join Select),
    joinsPieces (joinsMapParams f joins) = (joinsPieces joins).map (Piece.mapValue f)
  | [] => rfl
  | ⟨_, source, condition⟩ :: rest => by
    simp only [joinsMapParams, joinsPieces, List.map_append, List.map_cons, mapValue_text, sourcePieces_mapParams
      source, Expr.pieces_mapParams condition, joinsPieces_mapParams rest]

end

end Pieces

/-! ## The parts of a changed select -/

section Parts

mutual

/-- The parts of a changed expression are the changed parts. -/
theorem Expr.parts_mapParams : ∀ e : Expr, (e.mapParams f).parts = e.parts.map (Expr.mapParams f)
  | .column _ _ | .param _ | .text _ | .int _ => rfl
  | .call _ arguments => by
    simp only [Expr.mapParams, Expr.parts, List.map_cons, partsOfAll_mapParams arguments]
  | .binary left _ right => by
    simp only [Expr.mapParams, Expr.parts, List.map_cons, List.map_append, Expr.parts_mapParams left,
      Expr.parts_mapParams right]
  | .isNull operand _ => by
    simp only [Expr.mapParams, Expr.parts, List.map_cons, Expr.parts_mapParams operand]
  | .inList operand list => by
    simp only [Expr.mapParams, Expr.parts, List.map_cons, List.map_append, Expr.parts_mapParams operand,
      partsOfAll_mapParams list]
  | .case condition result otherwise => by
    simp only [Expr.mapParams, Expr.parts, List.map_cons, List.map_append, Expr.parts_mapParams condition,
      Expr.parts_mapParams result, elseParts_mapParams otherwise]
  | .rowNumber partitionBy orderBy => by
    simp only [Expr.mapParams, Expr.parts, List.map_cons, List.map_append, partsOfAll_mapParams partitionBy,
      orderParts_mapParams orderBy]

theorem partsOfAll_mapParams : ∀ es : List Expr,
    partsOfAll (mapParamsOfAll f es) = (partsOfAll es).map (Expr.mapParams f)
  | [] => rfl
  | e :: rest => by
    simp only [mapParamsOfAll, partsOfAll, List.map_append, Expr.parts_mapParams e, partsOfAll_mapParams rest]

theorem elseParts_mapParams : ∀ otherwise : Option Expr,
    elseParts (elseMapParams f otherwise) = (elseParts otherwise).map (Expr.mapParams f)
  | none => rfl
  | some e => Expr.parts_mapParams e

theorem orderParts_mapParams : ∀ terms : List (Expr × SortOrder),
    orderParts (orderMapParams f terms) = (orderParts terms).map (Expr.mapParams f)
  | [] => rfl
  | (e, _) :: rest => by
    simp only [orderMapParams, orderParts, List.map_append, Expr.parts_mapParams e, orderParts_mapParams rest]

end

mutual

/-- The parts of a changed select are the changed parts. -/
theorem Select.parts_mapParams : ∀ s : Select, (s.mapParams f).parts = s.parts.map (Expr.mapParams f)
  | ⟨items, source, joins, conditions, groupBy, orderBy, _, _⟩ => by
    have hitems : (items.map (itemMapParams f)).map Prod.fst = mapParamsOfAll f (items.map Prod.fst) := by
      rw [mapParamsOfAll_eq_map, List.map_map, List.map_map]
      rfl
    simp only [Select.mapParams, Select.parts, List.map_append, hitems, ← mapParamsOfAll_eq_map, partsOfAll_mapParams,
      orderParts_mapParams, sourceParts_mapParams source, joinsParts_mapParams joins]

theorem sourceParts_mapParams : ∀ source : Source Select,
    sourceParts (sourceMapParams f source) = (sourceParts source).map (Expr.mapParams f)
  | .table _ _ => rfl
  | .derived query _ => Select.parts_mapParams query

theorem joinsParts_mapParams : ∀ joins : List (Join Select),
    joinsParts (joinsMapParams f joins) = (joinsParts joins).map (Expr.mapParams f)
  | [] => rfl
  | ⟨_, source, condition⟩ :: rest => by
    simp only [joinsMapParams, joinsParts, List.map_append, sourceParts_mapParams source,
      Expr.parts_mapParams condition, joinsParts_mapParams rest]

end

end Parts

/-- Changed pieces say the same text with changed parameters. -/
theorem ofPieces_map (pieces : List Piece) : Statement.ofPieces (pieces.map (Piece.mapValue f)) =
    ⟨(Statement.ofPieces pieces).sql, (Statement.ofPieces pieces).params.map f⟩ := by
  have hsql : Piece.sql ∘ Piece.mapValue f = Piece.sql := funext fun p => by cases p <;> rfl
  have hvalue : (Piece.value? ∘ Piece.mapValue f) = fun p => p.value?.map f := funext fun p => by cases p <;> rfl
  simp only [Statement.ofPieces, List.map_map, List.filterMap_map, hsql, hvalue, List.map_filterMap]

/-- A changed select has the same text, and its parameters are changed. -/
theorem statement_mapParams (s : Select) : (s.mapParams f).statement = ⟨s.statement.sql, s.statement.params.map f⟩ := by
  rw [Select.statement, Select.pieces_mapParams, ofPieces_map]
  rfl

theorem Expr.statement_mapParams (e : Expr) :
    (e.mapParams f).statement = ⟨e.statement.sql, e.statement.params.map f⟩ := by
  rw [Expr.statement, Expr.pieces_mapParams, ofPieces_map]
  rfl

end TreeQuery.Sql
