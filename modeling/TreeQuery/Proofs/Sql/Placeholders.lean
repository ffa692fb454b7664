import TreeQuery.Proofs.Sql.Parts
import TreeQuery.Proofs.Sql.Reading

/-!
# Placeholders and parameters

Every expression and every select is tracked (`Expr.tracked`, `Select.tracked`), whatever names and texts it has: an
expression may begin with a quote, but what is written before and after it is plain text. So in the text of a select
the question marks outside of quotes are the placeholders, one for each parameter and in their order, and the
parameters are the values that the select binds, from left to right (`placeholders_align`).
-/

namespace TreeQuery.Sql

/-! ## Expressions and selects -/

/-- Whether a name needs no quotes. -/
def isIdentifier (name : String) : Bool := name != "" && name.toList.all fun c => c.isAlphanum || c == '_'

/-- Whether an expression, if it is a call, names its function without quotes. -/
def Expr.isCallable : Expr → Bool
  | .call function _ => isIdentifier function
  | _ => true

theorem isPlainText_of_isIdentifier {name : String} (h : isIdentifier name = true) :
    name ≠ "" ∧ isPlainText name = true := by
  obtain ⟨hne, hall⟩ := Bool.and_eq_true_iff.1 h
  exact ⟨bne_iff_ne.1 hne, List.all_eq_true.2 fun c hc => isPlain_of_isWord (List.all_eq_true.1 hall c hc)⟩

theorem isPlainText_operator (op : BinaryOperator) : isPlainText (" " ++ op.text ++ " ") = true := by
  refine isPlainText_append (isPlainText_append rfl ?_) rfl
  cases op with
  | compare c => cases c <;> rfl
  | like => rfl
  | concat => rfl

theorem operator_ne (op : BinaryOperator) : " " ++ op.text ++ " " ≠ "" := by
  rw [String.append_assoc, ne_eq, String.append_eq_empty_iff]
  exact fun h => absurd h.1 (by decide)

theorem isPlainText_paging (limit offset : Option UInt64) : isPlainText (pagingText limit offset) = true := by
  have hlimit (n : UInt64) : isPlainText (" LIMIT " ++ toString n.toNat) = true :=
    isPlainText_append rfl (isPlainText_nat _)
  have hoffset {s : String} (hs : isPlainText s = true) (n : UInt64) : isPlainText (s ++ toString n.toNat) = true :=
    isPlainText_append hs (isPlainText_nat _)
  cases limit with
  | none =>
    cases offset with
    | none => rfl
    | some n => exact hoffset rfl n
  | some m =>
    cases offset with
    | none => exact hlimit m
    | some n => exact hoffset (isPlainText_append (hlimit m) rfl) n

section Written

mutual

/-- Every expression is tracked. -/
theorem Expr.tracked : ∀ e : Expr, (∀ part ∈ e.parts, part.isCallable = true) → Tracked e.pieces
  | .column table name, _ => tracked_column table name
  | .param value, _ => (trailing_placeholder value).tracked
  | .text s, _ => tracked_quotedText s
  | .int n, _ => (trailing_of_isPlainText (isPlainText_int n.toInt)).tracked
  | .call function arguments, h => by
    obtain ⟨hfunction, harguments⟩ := List.forall_mem_cons.1 h
    obtain ⟨hne, hplain⟩ := isPlainText_of_isIdentifier hfunction
    have hlist : Tracked (joinPieces ", " (piecesOfAll arguments)) :=
      tracked_joinPieces rfl (by decide) (tracked_piecesOfAll arguments harguments)
    exact (trailing_text hplain hne (trailing_parenthesised hlist).tracked).tracked
  | .binary left op right, h => by
    obtain ⟨hleft, hright⟩ := List.forall_mem_append.1 (List.forall_mem_cons.1 h).2
    have hl : Tracked (operandPieces left left.pieces) := tracked_operandPieces left (left.tracked hleft)
    have hr : Tracked (operandPieces right right.pieces) := tracked_operandPieces right (right.tracked hright)
    exact hl.append (trailing_text (isPlainText_operator op) (operator_ne op) hr)
  | .isNull operand negated, h => by
    have ho : Tracked (operandPieces operand operand.pieces) :=
      tracked_operandPieces operand (operand.tracked (List.forall_mem_cons.1 h).2)
    refine ho.append (trailing_of_isPlainText ?_)
    cases negated <;> rfl
  | .inList operand list, h => by
    obtain ⟨hoperand, hlist⟩ := List.forall_mem_append.1 (List.forall_mem_cons.1 h).2
    have ho : Tracked (operandPieces operand operand.pieces) := tracked_operandPieces operand (operand.tracked hoperand)
    have hl : Tracked (joinPieces ", " (piecesOfAll list)) :=
      tracked_joinPieces rfl (by decide) (tracked_piecesOfAll list hlist)
    exact ho.append (trailing_text rfl (by decide) (trailing_parenthesised hl).tracked)
  | .case condition result otherwise, h => by
    obtain ⟨hcondition, h⟩ := List.forall_mem_append.1 (List.forall_mem_cons.1 h).2
    obtain ⟨hresult, hotherwise⟩ := List.forall_mem_append.1 h
    have hend : Trailing (elsePieces otherwise ++ [.text " END"]) :=
      (trailing_elsePieces otherwise hotherwise).append (trailing_of_isPlainText rfl)
    have hthen : Trailing (.text " THEN " :: (result.pieces ++ (elsePieces otherwise ++ [.text " END"]))) :=
      trailing_text rfl (by decide) ((result.tracked hresult).append hend)
    exact (trailing_text rfl (by decide) ((condition.tracked hcondition).append hthen)).tracked
  | .rowNumber partitionBy orderBy, h => by
    obtain ⟨hpartition, horder⟩ := List.forall_mem_append.1 (List.forall_mem_cons.1 h).2
    have hwindow : Tracked (windowPieces (piecesOfAll partitionBy) (orderPieces orderBy)) :=
      tracked_windowPieces (tracked_piecesOfAll partitionBy hpartition) (tracked_orderPieces orderBy horder)
    exact (trailing_text rfl (by decide) (trailing_parenthesised hwindow).tracked).tracked

theorem tracked_piecesOfAll : ∀ es : List Expr, (∀ part ∈ partsOfAll es, part.isCallable = true) →
    ∀ ps ∈ piecesOfAll es, Tracked ps
  | [], _ => nofun
  | e :: rest, h => by
    obtain ⟨he, hrest⟩ := List.forall_mem_append.1 h
    exact List.forall_mem_cons.2 ⟨e.tracked he, tracked_piecesOfAll rest hrest⟩

theorem trailing_elsePieces : ∀ otherwise : Option Expr, (∀ part ∈ elseParts otherwise, part.isCallable = true) →
    Trailing (elsePieces otherwise)
  | none, _ => trailing_nil
  | some e, h => trailing_text rfl (by decide) (e.tracked h)

theorem tracked_orderPieces : ∀ terms : List (Expr × SortOrder), (∀ part ∈ orderParts terms, part.isCallable = true) →
    ∀ ps ∈ orderPieces terms, Tracked ps
  | [], _ => nofun
  | (e, order) :: rest, h => by
    obtain ⟨he, hrest⟩ := List.forall_mem_append.1 h
    have hplain : isPlainText (orderText order) = true := by cases order <;> rfl
    exact List.forall_mem_cons.2
      ⟨(e.tracked he).append (trailing_of_isPlainText hplain), tracked_orderPieces rest hrest⟩

end

theorem tracked_itemPieces : ∀ item : Expr × Option String, (∀ part ∈ item.1.parts, part.isCallable = true) →
    Tracked (itemPieces item)
  | (e, some label), h => (e.tracked h).append (trailing_label label)
  | (e, none), h => e.tracked h

mutual

/-- Every select is tracked. -/
theorem Select.tracked : ∀ s : Select, (∀ part ∈ s.parts, part.isCallable = true) → Tracked s.pieces
  | ⟨items, source, joins, conditions, groupBy, orderBy, limit, offset⟩, h => by
    obtain ⟨hitems, h⟩ := List.forall_mem_append.1 h
    obtain ⟨hsource, h⟩ := List.forall_mem_append.1 h
    obtain ⟨hjoins, h⟩ := List.forall_mem_append.1 h
    obtain ⟨hconditions, h⟩ := List.forall_mem_append.1 h
    obtain ⟨hgroup, horder⟩ := List.forall_mem_append.1 h
    have hitem : ∀ ps ∈ items.map itemPieces, Tracked ps := List.forall_mem_map.2 fun item hitem =>
      tracked_itemPieces item fun part hpart =>
        hitems part (mem_partsOfAll.2 ⟨item.1, List.mem_map_of_mem hitem, hpart⟩)
    have hcondition : ∀ ps ∈ conditions.map (fun e => operandPieces e e.pieces), Tracked ps :=
      List.forall_mem_map.2 fun e he => tracked_operandPieces e (e.tracked fun part hpart =>
        hconditions part (mem_partsOfAll.2 ⟨e, he, hpart⟩))
    have hwhere : Trailing (clausePieces " WHERE " " AND " (conditions.map fun e => operandPieces e e.pieces)) :=
      trailing_clausePieces rfl (by decide) rfl (by decide) hcondition
    have hgroupBy : Trailing (clausePieces " GROUP BY " ", " (piecesOfAll groupBy)) :=
      trailing_clausePieces rfl (by decide) rfl (by decide) (tracked_piecesOfAll groupBy hgroup)
    have horderBy : Trailing (clausePieces " ORDER BY " ", " (orderPieces orderBy)) :=
      trailing_clausePieces rfl (by decide) rfl (by decide) (tracked_orderPieces orderBy horder)
    have hpaging : Trailing [.text (pagingText limit offset)] :=
      trailing_of_isPlainText (isPlainText_paging limit offset)
    have hclauses := hwhere.append (hgroupBy.append (horderBy.append hpaging))
    have hfrom := trailing_text (show isPlainText " FROM " = true from rfl) (by decide)
      ((tracked_sourcePieces source hsource).append ((trailing_joinsPieces joins hjoins).append hclauses))
    exact (trailing_text rfl (by decide) ((tracked_joinPieces rfl (by decide) hitem).append hfrom)).tracked

theorem tracked_sourcePieces : ∀ source : Source Select, (∀ part ∈ sourceParts source, part.isCallable = true) →
    Tracked (sourcePieces source)
  | .table name label, _ => by
    rw [sourcePieces, String.append_assoc]
    exact Reading.finds_text_append.2 ((tracked_quotedName name).append (trailing_label label))
  | .derived query label, h =>
    ((trailing_parenthesised (query.tracked h)).append (trailing_label label)).tracked

theorem trailing_joinsPieces : ∀ joins : List (Join Select), (∀ part ∈ joinsParts joins, part.isCallable = true) →
    Trailing (joinsPieces joins)
  | [], _ => trailing_nil
  | ⟨kind, source, condition⟩ :: rest, h => by
    obtain ⟨hsource, h⟩ := List.forall_mem_append.1 h
    obtain ⟨hcondition, hrest⟩ := List.forall_mem_append.1 h
    have hon : Trailing (.text " ON " :: (condition.pieces ++ joinsPieces rest)) :=
      trailing_text rfl (by decide) ((condition.tracked hcondition).append (trailing_joinsPieces rest hrest))
    refine trailing_text ?_ ?_ ((tracked_sourcePieces source hsource).append hon)
    · cases kind <;> rfl
    · cases kind <;> decide

end

end Written

/-! ## Parameters -/

/-- The values that some pieces bind. -/
def pieceValues (pieces : List Piece) : List Value := pieces.filterMap Piece.value?

/-- The values that some expressions bind. -/
def boundValues (parts : List Expr) : List Value := parts.filterMap Expr.value?

section Values

theorem pieceValues_text (s : String) (ps : List Piece) : pieceValues (.text s :: ps) = pieceValues ps := rfl

theorem pieceValues_append (ps rs : List Piece) : pieceValues (ps ++ rs) = pieceValues ps ++ pieceValues rs :=
  List.filterMap_append

theorem boundValues_append (es ds : List Expr) : boundValues (es ++ ds) = boundValues es ++ boundValues ds :=
  List.filterMap_append

theorem pieceValues_joinPieces (separator : String) : ∀ lists : List (List Piece),
    pieceValues (joinPieces separator lists) = lists.flatMap pieceValues
  | [] => rfl
  | [ps] => (List.append_nil _).symm
  | ps :: next :: rest => by
    rw [joinPieces, pieceValues_append, pieceValues_text, pieceValues_joinPieces separator (next :: rest)]
    rfl

theorem pieceValues_parenthesised (ps : List Piece) : pieceValues (parenthesised ps) = pieceValues ps := by
  rw [parenthesised, pieceValues_text, pieceValues_append]
  exact List.append_nil _

theorem pieceValues_operandPieces (e : Expr) (ps : List Piece) : pieceValues (operandPieces e ps) = pieceValues ps := by
  unfold operandPieces
  split
  · exact pieceValues_parenthesised ps
  · rfl

theorem pieceValues_clausePieces (keyword separator : String) (terms : List (List Piece)) :
    pieceValues (clausePieces keyword separator terms) = terms.flatMap pieceValues := by
  cases terms with
  | nil => rfl
  | cons ps rest => exact pieceValues_joinPieces separator (ps :: rest)

theorem pieceValues_windowPieces (partitionBy orderBy : List (List Piece)) :
    pieceValues (windowPieces partitionBy orderBy) =
      partitionBy.flatMap pieceValues ++ orderBy.flatMap pieceValues := by
  have hterms (keyword : String) (terms : List (List Piece)) :
      (if terms.isEmpty then [] else [.text keyword :: joinPieces ", " terms]).flatMap pieceValues =
        terms.flatMap pieceValues := by
    cases terms with
    | nil => rfl
    | cons ps rest =>
      rw [← pieceValues_joinPieces ", " (ps :: rest)]
      exact List.append_nil _
  rw [windowPieces, pieceValues_joinPieces, List.flatMap_append, hterms, hterms]

mutual

/-- The pieces of an expression bind what is bound in it. -/
theorem Expr.pieceValues_pieces : ∀ e : Expr, pieceValues e.pieces = boundValues e.parts
  | .column _ _ | .param _ | .text _ | .int _ => rfl
  | .call _ arguments => by
    rw [Expr.pieces, pieceValues_text, pieceValues_parenthesised, pieceValues_joinPieces,
      pieceValues_piecesOfAll arguments]
    rfl
  | .binary left _ right => by
    rw [Expr.pieces, pieceValues_append, pieceValues_text, pieceValues_operandPieces, pieceValues_operandPieces,
      left.pieceValues_pieces, right.pieceValues_pieces, ← boundValues_append]
    rfl
  | .isNull operand _ => by
    rw [Expr.pieces, pieceValues_append, pieceValues_text, pieceValues_operandPieces, operand.pieceValues_pieces]
    exact List.append_nil _
  | .inList operand list => by
    rw [Expr.pieces, pieceValues_append, pieceValues_text, pieceValues_operandPieces, pieceValues_parenthesised,
      pieceValues_joinPieces, operand.pieceValues_pieces, pieceValues_piecesOfAll list, ← boundValues_append]
    rfl
  | .case condition result otherwise => by
    rw [Expr.pieces, pieceValues_text, pieceValues_append, pieceValues_text, pieceValues_append, pieceValues_append,
      pieceValues_text, condition.pieceValues_pieces, result.pieceValues_pieces, pieceValues_elsePieces otherwise]
    rw [show pieceValues [] = [] from rfl, List.append_nil, ← boundValues_append, ← boundValues_append]
    rfl
  | .rowNumber partitionBy orderBy => by
    rw [Expr.pieces, pieceValues_text, pieceValues_parenthesised, pieceValues_windowPieces,
      pieceValues_piecesOfAll partitionBy, pieceValues_orderPieces orderBy, ← boundValues_append]
    rfl

theorem pieceValues_piecesOfAll : ∀ es : List Expr, (piecesOfAll es).flatMap pieceValues = boundValues (partsOfAll es)
  | [] => rfl
  | e :: rest => by
    rw [piecesOfAll, List.flatMap_cons, e.pieceValues_pieces, pieceValues_piecesOfAll rest, ← boundValues_append]
    rfl

theorem pieceValues_elsePieces : ∀ otherwise : Option Expr,
    pieceValues (elsePieces otherwise) = boundValues (elseParts otherwise)
  | none => rfl
  | some e => e.pieceValues_pieces

theorem pieceValues_orderPieces : ∀ terms : List (Expr × SortOrder),
    (orderPieces terms).flatMap pieceValues = boundValues (orderParts terms)
  | [] => rfl
  | (e, order) :: rest => by
    have hterm : pieceValues (e.pieces ++ [.text (orderText order)]) = boundValues e.parts := by
      rw [pieceValues_append, e.pieceValues_pieces]
      exact List.append_nil _
    rw [orderPieces, List.flatMap_cons, hterm, pieceValues_orderPieces rest, ← boundValues_append]
    rfl

end

theorem pieceValues_itemPieces : ∀ item : Expr × Option String,
    pieceValues (itemPieces item) = boundValues item.1.parts
  | (e, some label) => by
    rw [itemPieces, pieceValues_append, e.pieceValues_pieces]
    exact List.append_nil _
  | (e, none) => e.pieceValues_pieces

theorem boundValues_partsOfAll (es : List Expr) :
    boundValues (partsOfAll es) = es.flatMap fun e => boundValues e.parts := by
  rw [partsOfAll_eq_flatMap]
  exact List.filterMap_flatMap

mutual

/-- The pieces of a select bind what is bound in it. -/
theorem Select.pieceValues_pieces : ∀ s : Select, pieceValues s.pieces = boundValues s.parts
  | ⟨items, source, joins, conditions, groupBy, orderBy, limit, offset⟩ => by
    have hitems : (items.map itemPieces).flatMap pieceValues = boundValues (partsOfAll (items.map Prod.fst)) := by
      rw [boundValues_partsOfAll, List.flatMap_map, List.flatMap_map]
      exact congrArg (items.flatMap ·) (funext pieceValues_itemPieces)
    have hconditions : (conditions.map fun e => operandPieces e e.pieces).flatMap pieceValues =
        boundValues (partsOfAll conditions) := by
      rw [boundValues_partsOfAll, List.flatMap_map]
      exact congrArg (conditions.flatMap ·)
        (funext fun e => (pieceValues_operandPieces e _).trans e.pieceValues_pieces)
    have hpaging : pieceValues [.text (pagingText limit offset)] = [] := rfl
    simp only [Select.pieces, pieceValues_text, pieceValues_append, pieceValues_joinPieces, pieceValues_clausePieces,
      hitems, hconditions, hpaging, pieceValues_sourcePieces source, pieceValues_joinsPieces joins,
      pieceValues_piecesOfAll groupBy, pieceValues_orderPieces orderBy, List.append_nil, Select.parts,
      boundValues_append]

theorem pieceValues_sourcePieces : ∀ source : Source Select,
    pieceValues (sourcePieces source) = boundValues (sourceParts source)
  | .table _ _ => rfl
  | .derived query _ => by
    rw [sourcePieces, pieceValues_append, pieceValues_parenthesised, query.pieceValues_pieces]
    exact List.append_nil _

theorem pieceValues_joinsPieces : ∀ joins : List (Join Select),
    pieceValues (joinsPieces joins) = boundValues (joinsParts joins)
  | [] => rfl
  | ⟨_, source, condition⟩ :: rest => by
    rw [joinsPieces, pieceValues_text, pieceValues_append, pieceValues_text, pieceValues_append,
      pieceValues_sourcePieces source, condition.pieceValues_pieces, pieceValues_joinsPieces rest, joinsParts,
      boundValues_append, boundValues_append]

end

end Values

/-- **Placeholders and parameters line up.** In the statement of a select whose functions are named without quotes,
all that is quoted has an end; the question marks outside of quotes are the placeholders, which bind the parameters in
their order; and these are the values that the select binds, from left to right. -/
theorem placeholders_align (s : Select) (h : ∀ part ∈ s.parts, part.isCallable = true) :
    (Reading.outside.run s.statement.sql.toList).isOpen = false ∧
      Reading.outside.marks 0 s.statement.sql.toList = (placements 0 s.pieces).map Prod.fst ∧
      s.statement.params = (placements 0 s.pieces).map Prod.snd ∧
      (Reading.outside.marks 0 s.statement.sql.toList).length = s.statement.params.length ∧
      s.statement.params = s.parts.filterMap Expr.value? := by
  have htracked : Reading.outside.Finds s.pieces := s.tracked h
  have hchars : s.statement.sql.toList = pieceChars s.pieces := toList_sql_ofPieces s.pieces
  have hparams : s.statement.params = (placements 0 s.pieces).map Prod.snd := params_ofPieces 0 s.pieces
  have hmarks : Reading.outside.marks 0 s.statement.sql.toList = (placements 0 s.pieces).map Prod.fst := by
    rw [hchars]
    exact htracked.marks 0
  refine ⟨?_, hmarks, hparams, ?_, s.pieceValues_pieces⟩
  · rw [hchars]
    exact htracked.closed
  · rw [hmarks, hparams, List.length_map, List.length_map]

/-- A select whose names and texts have quotes and question marks in them, with a parameter in a derived table and two
behind it. -/
def quizSelect : Select where
  items := [(.call "lower" [.param (.string "who?")], some "\"?\"")]
  source := .derived
    { Select.ofSource (.table "quiz \"?\"" "'?'") with
      items := [(.column "'?'" "\"", some "it's")]
      conditions := [.binary (.column "'?'" "?") .like (.param (.string "why?"))] } "?"
  joins := []
  conditions := [.binary (.text "isn't it?") .concat (.param (.int 3)), .isNull (.column "?" "it's") true]
  groupBy := []
  orderBy := [(.column "?" "it's", .descending)]
  limit := some 3
  offset := none

theorem placeholders_align_quiz : (∀ part ∈ quizSelect.parts, part.isCallable = true) ∧
    (Reading.outside.run quizSelect.statement.sql.toList).isOpen = false ∧
      Reading.outside.marks 0 quizSelect.statement.sql.toList = (placements 0 quizSelect.pieces).map Prod.fst ∧
      (Reading.outside.marks 0 quizSelect.statement.sql.toList).length = 3 ∧
      quizSelect.statement.params = quizSelect.parts.filterMap Expr.value? := by
  have hnamed : ∀ part ∈ quizSelect.parts, part.isCallable = true := by decide
  obtain ⟨hclosed, hmarks, _, hlength, hbound⟩ := placeholders_align quizSelect hnamed
  exact ⟨hnamed, hclosed, hmarks, hlength, hbound⟩

end TreeQuery.Sql
