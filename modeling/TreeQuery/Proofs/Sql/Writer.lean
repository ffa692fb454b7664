import TreeQuery.Proofs.Sql.Placeholders

/-!
# Writing in one pass

A select can be written without pieces, in one pass that hands on the values bound so far: every part in turn gives its
text and binds its values behind them. The pass makes the same statement as the pieces do (`Select.run_write`), so the
parameters of a statement are in the order in which the parts are written.

- What a step gives does not depend on what is bound before it (`Binds`), and steps in turn bind their values in turn
  (`Binds.bind`).
- Each part writes the text of its pieces and binds their values (`Expr.writes`, `Select.writes`).
-/

namespace TreeQuery.Sql

/-! ## The pass -/

/-- A step of writing, which adds the values that it binds to those bound so far. -/
abbrev Writing (α : Type) := StateM (List Value) α

/-- A placeholder for a value, which is bound behind the others. -/
def bindValue (value : Value) : Writing String := do
  modify fun bound => bound ++ [value]
  return "?"

/-- A text in parentheses. -/
def inParentheses (text : String) : String := "(" ++ text ++ ")"

/-- The text of an expression as an operand. -/
def operandText (e : Expr) (text : String) : String := if e.isOperation then inParentheses text else text

/-- A clause, if it has any terms. -/
def clauseText (keyword separator : String) (terms : List String) : String :=
  if terms.isEmpty then "" else keyword ++ separator.intercalate terms

/-- The parts of a window, as far as there are any. -/
def windowText (partitionBy orderBy : List String) : String :=
  let partitions := if partitionBy.isEmpty then [] else ["PARTITION BY " ++ ", ".intercalate partitionBy]
  let orders := if orderBy.isEmpty then [] else ["ORDER BY " ++ ", ".intercalate orderBy]
  " ".intercalate (partitions ++ orders)

mutual

/-- Writes an expression. -/
def Expr.write : Expr → Writing String
  | .column table name => return quotedName table ++ "." ++ quotedName name
  | .param value => bindValue value
  | .text s => return quotedText s
  | .int n => return toString n.toInt
  | .call function arguments => do
    let arguments ← writeAll arguments
    return function ++ inParentheses (", ".intercalate arguments)
  | .binary left operator right => do
    let leftText ← left.write
    let rightText ← right.write
    return operandText left leftText ++ " " ++ operator.text ++ " " ++ operandText right rightText
  | .isNull operand negated => do
    let text ← operand.write
    return operandText operand text ++ if negated then " IS NOT NULL" else " IS NULL"
  | .inList operand list => do
    let text ← operand.write
    let list ← writeAll list
    return operandText operand text ++ " IN " ++ inParentheses (", ".intercalate list)
  | .case condition result otherwise => do
    let condition ← condition.write
    let result ← result.write
    let otherwise ← writeElse otherwise
    return "CASE WHEN " ++ condition ++ " THEN " ++ result ++ otherwise ++ " END"
  | .rowNumber partitionBy orderBy => do
    let partitions ← writeAll partitionBy
    let orders ← writeOrder orderBy
    return "ROW_NUMBER() OVER " ++ inParentheses (windowText partitions orders)

/-- Writes some expressions in turn. -/
def writeAll : List Expr → Writing (List String)
  | [] => return []
  | e :: rest => do
    let text ← e.write
    let texts ← writeAll rest
    return text :: texts

/-- Writes the last branch of a case, if there is one. -/
def writeElse : Option Expr → Writing String
  | none => return ""
  | some e => do
    let text ← e.write
    return " ELSE " ++ text

/-- Writes some order terms in turn. -/
def writeOrder : List (Expr × SortOrder) → Writing (List String)
  | [] => return []
  | (e, order) :: rest => do
    let text ← e.write
    let texts ← writeOrder rest
    return (text ++ orderText order) :: texts

end

/-- Writes an operand. -/
def writeOperand (e : Expr) : Writing String := do
  let text ← e.write
  return operandText e text

/-- Writes a result column. -/
def writeItem : Expr × Option String → Writing String
  | (e, some label) => do
    let text ← e.write
    return text ++ " AS " ++ quotedName label
  | (e, none) => e.write

mutual

/-- Writes a select: each clause in the order of the text. -/
def Select.write : Select → Writing String
  | ⟨items, source, joins, conditions, groupBy, orderBy, limit, offset⟩ => do
    let items ← items.mapM writeItem
    let source ← writeSource source
    let joins ← writeJoins joins
    let conditions ← conditions.mapM writeOperand
    let groups ← writeAll groupBy
    let orders ← writeOrder orderBy
    return "SELECT " ++ ", ".intercalate items ++ " FROM " ++ source ++ joins ++
      clauseText " WHERE " " AND " conditions ++ clauseText " GROUP BY " ", " groups ++
      clauseText " ORDER BY " ", " orders ++ pagingText limit offset

/-- Writes a source. -/
def writeSource : Source Select → Writing String
  | .table name label => return quotedName name ++ " AS " ++ quotedName label
  | .derived query label => do
    let text ← query.write
    return inParentheses text ++ " AS " ++ quotedName label

/-- Writes some joins in turn. -/
def writeJoins : List (Join Select) → Writing String
  | [] => return ""
  | ⟨kind, source, condition⟩ :: rest => do
    let source ← writeSource source
    let condition ← condition.write
    let rest ← writeJoins rest
    return joinText kind ++ source ++ " ON " ++ condition ++ rest

end

/-! ## What a step binds -/

section Steps

variable {α β : Type}

/-- Whether a step has a result and binds some values, whatever is bound before. -/
def Binds (w : Writing α) (a : α) (values : List Value) : Prop := ∀ bound, w.run bound = (a, bound ++ values)

theorem binds_pure (a : α) : Binds (pure a) a [] := fun bound => by rw [List.append_nil]; rfl

theorem binds_bindValue (value : Value) : Binds (bindValue value) "?" [value] := fun _ => rfl

/-- Steps in turn bind their values in turn. -/
theorem Binds.bind {w : Writing α} {f : α → Writing β} {a : α} {b : β} {values more : List Value}
    (hw : Binds w a values) (hf : Binds (f a) b more) : Binds (w >>= f) b (values ++ more) := by
  intro bound
  have hrun : (w >>= f).run bound = (f (w.run bound).1).run (w.run bound).2 := rfl
  rw [hrun, hw, hf, List.append_assoc]

/-- What is made of the result of a step binds no more than the step. -/
theorem Binds.map {w : Writing α} {a : α} {values : List Value} (hw : Binds w a values) (f : α → β) :
    Binds (w >>= fun x => pure (f x)) (f a) values := by
  have h := hw.bind (f := fun x => pure (f x)) (binds_pure (f a))
  rwa [List.append_nil] at h

end Steps

/-! ## Texts of pieces -/

/-- The text of some pieces. -/
def pieceText (pieces : List Piece) : String := String.join (pieces.map Piece.sql)

theorem pieceText_text (s : String) (ps : List Piece) : pieceText (.text s :: ps) = s ++ pieceText ps :=
  String.join_cons

theorem pieceText_placeholder (value : Value) : pieceText [.placeholder value] = "?" :=
  String.join_cons.trans String.append_empty

theorem pieceText_append (ps rs : List Piece) : pieceText (ps ++ rs) = pieceText ps ++ pieceText rs := by
  rw [pieceText, List.map_append, String.join_append]
  rfl

theorem pieceText_single (s : String) : pieceText [.text s] = s := String.join_cons.trans String.append_empty

theorem pieceText_concat (ps : List Piece) (s : String) : pieceText (ps ++ [.text s]) = pieceText ps ++ s := by
  rw [pieceText_append, pieceText_single]

theorem pieceValues_concat (ps : List Piece) (s : String) : pieceValues (ps ++ [.text s]) = pieceValues ps := by
  rw [pieceValues_append]
  exact List.append_nil _

theorem pieceText_joinPieces (separator : String) : ∀ lists : List (List Piece),
    pieceText (joinPieces separator lists) = separator.intercalate (lists.map pieceText)
  | [] => String.intercalate_nil.symm
  | [_] => String.intercalate_singleton.symm
  | ps :: next :: rest => by
    have ih := pieceText_joinPieces separator (next :: rest)
    simp only [joinPieces, pieceText_append, pieceText_text, ih, List.map_cons, String.intercalate_cons_cons,
      String.append_assoc]

theorem pieceText_parenthesised (ps : List Piece) : pieceText (parenthesised ps) = inParentheses (pieceText ps) := by
  rw [parenthesised, pieceText_text, pieceText_concat, inParentheses, String.append_assoc]

theorem pieceText_operandPieces (e : Expr) (ps : List Piece) :
    pieceText (operandPieces e ps) = operandText e (pieceText ps) := by
  unfold operandPieces operandText
  split
  · exact pieceText_parenthesised ps
  · rfl

theorem pieceText_clausePieces (keyword separator : String) (terms : List (List Piece)) :
    pieceText (clausePieces keyword separator terms) = clauseText keyword separator (terms.map pieceText) := by
  cases terms with
  | nil => rfl
  | cons ps rest => exact (pieceText_text keyword _).trans (congrArg (keyword ++ ·) (pieceText_joinPieces separator _))

theorem pieceText_windowPieces (partitionBy orderBy : List (List Piece)) :
    pieceText (windowPieces partitionBy orderBy) =
      windowText (partitionBy.map pieceText) (orderBy.map pieceText) := by
  have hterms (keyword : String) (terms : List (List Piece)) :
      (if terms.isEmpty then [] else [.text keyword :: joinPieces ", " terms]).map pieceText =
        if (terms.map pieceText).isEmpty then [] else [keyword ++ ", ".intercalate (terms.map pieceText)] := by
    cases terms with
    | nil => rfl
    | cons ps rest =>
      rw [← pieceText_joinPieces, ← pieceText_text]
      rfl
  rw [windowPieces, pieceText_joinPieces, List.map_append, hterms, hterms]
  rfl

/-! ## What a pass writes -/

section Passes

/-- Whether a step writes some pieces: it gives their text and binds their values. -/
def Writes (w : Writing String) (pieces : List Piece) : Prop := Binds w (pieceText pieces) (pieceValues pieces)

/-- Whether a step writes lists of pieces, each to a text of its own. -/
def WritesAll (w : Writing (List String)) (lists : List (List Piece)) : Prop :=
  Binds w (lists.map pieceText) (lists.flatMap pieceValues)

theorem Binds.writes {w : Writing String} {text : String} {values : List Value} {pieces : List Piece}
    (h : Binds w text values) (htext : pieceText pieces = text) (hvalues : pieceValues pieces = values) :
    Writes w pieces := by
  rw [Writes, htext, hvalues]
  exact h

theorem Writes.cons {w : Writing String} {ws : Writing (List String)} {ps : List Piece} {lists : List (List Piece)}
    (hw : Writes w ps) (hws : WritesAll ws lists) : WritesAll (do return (← w) :: (← ws)) (ps :: lists) :=
  hw.bind (hws.map (pieceText ps :: ·))

/-- A pass over a list writes what it writes of each entry. -/
theorem writesAll_mapM {α : Type} {write : α → Writing String} {pieces : α → List Piece}
    (h : ∀ a, Writes (write a) (pieces a)) : ∀ as : List α, WritesAll (as.mapM write) (as.map pieces)
  | [] => by
    rw [List.mapM_nil]
    exact binds_pure []
  | a :: as => by
    rw [List.mapM_cons]
    exact (h a).cons (writesAll_mapM h as)

mutual

/-- An expression is written as its pieces say: the parts bind their values in turn, and the text around them is that
between their pieces. -/
theorem Expr.writes : ∀ e : Expr, Writes e.write e.pieces
  | .column table name => by
    rw [Expr.write, Expr.pieces]
    exact (binds_pure _).writes (pieceText_single _) rfl
  | .param value => by
    rw [Expr.write, Expr.pieces]
    exact (binds_bindValue value).writes (pieceText_placeholder value) rfl
  | .text s => by
    rw [Expr.write, Expr.pieces]
    exact (binds_pure _).writes (pieceText_single _) rfl
  | .int n => by
    rw [Expr.write, Expr.pieces]
    exact (binds_pure _).writes (pieceText_single _) rfl
  | .call function arguments => by
    rw [Expr.write]
    refine ((writesAll arguments).map _).writes ?_ ?_
    · rw [Expr.pieces, pieceText_text, pieceText_parenthesised, pieceText_joinPieces]
    · rw [Expr.pieces, pieceValues_text, pieceValues_parenthesised, pieceValues_joinPieces]
  | .binary left operator right => by
    rw [Expr.write]
    refine (left.writes.bind (right.writes.map _)).writes ?_ ?_
    · simp only [Expr.pieces, pieceText_append, pieceText_text, pieceText_operandPieces, String.append_assoc]
    · rw [Expr.pieces, pieceValues_append, pieceValues_text, pieceValues_operandPieces, pieceValues_operandPieces]
  | .isNull operand negated => by
    rw [Expr.write]
    refine (operand.writes.map _).writes ?_ ?_
    · rw [Expr.pieces, pieceText_concat, pieceText_operandPieces]
    · rw [Expr.pieces, pieceValues_concat, pieceValues_operandPieces]
  | .inList operand list => by
    rw [Expr.write]
    refine (operand.writes.bind ((writesAll list).map _)).writes ?_ ?_
    · simp only [Expr.pieces, pieceText_append, pieceText_text, pieceText_operandPieces, pieceText_parenthesised,
        pieceText_joinPieces, String.append_assoc]
    · rw [Expr.pieces, pieceValues_append, pieceValues_text, pieceValues_operandPieces, pieceValues_parenthesised,
        pieceValues_joinPieces]
  | .case condition result otherwise => by
    rw [Expr.write]
    refine (condition.writes.bind (result.writes.bind ((writes_else otherwise).map _))).writes ?_ ?_
    · simp only [Expr.pieces, pieceText_text, pieceText_append, ↓pieceText_concat, String.append_assoc]
    · simp only [Expr.pieces, pieceValues_text, pieceValues_append, ↓pieceValues_concat]
  | .rowNumber partitionBy orderBy => by
    rw [Expr.write]
    refine ((writesAll partitionBy).bind ((writesAll_order orderBy).map _)).writes ?_ ?_
    · rw [Expr.pieces, pieceText_text, pieceText_parenthesised, pieceText_windowPieces]
    · rw [Expr.pieces, pieceValues_text, pieceValues_parenthesised, pieceValues_windowPieces]

theorem writesAll : ∀ es : List Expr, WritesAll (writeAll es) (piecesOfAll es)
  | [] => binds_pure []
  | e :: rest => e.writes.cons (writesAll rest)

theorem writes_else : ∀ otherwise : Option Expr, Writes (writeElse otherwise) (elsePieces otherwise)
  | none => binds_pure ""
  | some e => (e.writes.map _).writes (pieceText_text _ _) rfl

theorem writesAll_order : ∀ terms : List (Expr × SortOrder), WritesAll (writeOrder terms) (orderPieces terms)
  | [] => binds_pure []
  | (e, order) :: rest => by
    have hterm : Writes (do return (← e.write) ++ orderText order) (e.pieces ++ [.text (orderText order)]) :=
      (e.writes.map _).writes (pieceText_concat _ _) (pieceValues_concat _ _)
    exact hterm.cons (writesAll_order rest)

end

theorem writes_operand (e : Expr) : Writes (writeOperand e) (operandPieces e e.pieces) :=
  (e.writes.map _).writes (pieceText_operandPieces e _) (pieceValues_operandPieces e _)

theorem writes_item : ∀ item : Expr × Option String, Writes (writeItem item) (itemPieces item)
  | (e, some label) => by
    refine (e.writes.map _).writes ?_ ?_
    · rw [itemPieces, pieceText_concat, String.append_assoc]
    · rw [itemPieces, pieceValues_concat]
  | (e, none) => e.writes

mutual

/-- A select is written as its pieces say. -/
theorem Select.writes : ∀ s : Select, Writes s.write s.pieces
  | ⟨items, source, joins, conditions, groupBy, orderBy, limit, offset⟩ => by
    rw [Select.write]
    refine ((writesAll_mapM writes_item items).bind ((writes_source source).bind ((writes_joins joins).bind
      ((writesAll_mapM writes_operand conditions).bind ((writesAll groupBy).bind
        ((writesAll_order orderBy).map _)))))).writes ?_ ?_
    · simp only [Select.pieces, pieceText_text, pieceText_append, ↓pieceText_concat, pieceText_joinPieces,
        pieceText_clausePieces, String.append_assoc]
    · simp only [Select.pieces, pieceValues_text, pieceValues_append, ↓pieceValues_concat, pieceValues_joinPieces,
        pieceValues_clausePieces]

theorem writes_source : ∀ source : Source Select, Writes (writeSource source) (sourcePieces source)
  | .table name label => by
    rw [writeSource, sourcePieces]
    exact (binds_pure _).writes (by rw [pieceText_single, String.append_assoc]) rfl
  | .derived query label => by
    rw [writeSource]
    refine (query.writes.map _).writes ?_ ?_
    · rw [sourcePieces, pieceText_concat, pieceText_parenthesised, String.append_assoc]
    · rw [sourcePieces, pieceValues_concat, pieceValues_parenthesised]

theorem writes_joins : ∀ joins : List (Join Select), Writes (writeJoins joins) (joinsPieces joins)
  | [] => binds_pure ""
  | ⟨kind, source, condition⟩ :: rest => by
    rw [writeJoins]
    refine ((writes_source source).bind (condition.writes.bind ((writes_joins rest).map _))).writes ?_ ?_
    · simp only [joinsPieces, pieceText_text, pieceText_append, String.append_assoc]
    · rw [joinsPieces, pieceValues_text, pieceValues_append, pieceValues_text, pieceValues_append]

end

end Passes

/-- **One pass makes the statement.** Whatever is bound before, writing a select gives the text of its statement and
binds the parameters of the statement in their order. -/
theorem Select.run_write (s : Select) (bound : List Value) :
    s.write.run bound = (s.statement.sql, bound ++ s.statement.params) := s.writes bound

/-- Writing an expression gives the text of its statement and binds the parameters of the statement. -/
theorem Expr.run_write (e : Expr) (bound : List Value) :
    e.write.run bound = (e.statement.sql, bound ++ e.statement.params) := e.writes bound

end TreeQuery.Sql
