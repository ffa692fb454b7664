import TreeQuery.Proofs.Sql.Operands

/-!
# Reading expressions back

Every expression can be read back, by itself and as an operand, whatever names and texts it has (`Expr.readable`). For
each constructor the parts are read off from left to right, in the order in which they are written: lists by their
commas (`legible_arguments`, `legible_terms`), the two parts of a window by their keywords (`window_unique`).
-/

namespace TreeQuery.Sql

/-! ## Operands of each form -/

theorem head?_dot (x : List Glyph) : (typed "." ++ x).head? ≠ some (.char '"') := by
  have hdot : (typed "." ++ x).head? = some (.char '.') := rfl
  rw [hdot]
  intro h
  exact absurd (Glyph.char.inj (Option.some.inj h)) (by decide)

theorem readable_column (table name : String) : (Expr.column table name).Readable := by
  refine readable_of_form rfl (callable_atom rfl rfl) ?_
  intro e' hform _ r r' hr hr' heq
  cases e' with
  | column table' name' =>
    simp only [glyphs_column, List.append_assoc] at heq
    obtain ⟨rfl, hdot⟩ := quotedName_unique (head?_dot _) (head?_dot _) heq
    obtain ⟨rfl, hrest⟩ := quotedName_unique (hr.head?_ne punctuated_operandEnds rfl)
      (hr'.head?_ne punctuated_operandEnds rfl) (List.append_cancel_left hdot)
    exact ⟨rfl, hrest⟩
  | param _ | text _ | int _ | call _ _ | case _ _ _ | rowNumber _ _ | binary _ _ _ | isNull _ _ | inList _ _ =>
    cases hform

theorem readable_param (value : Value) : (Expr.param value).Readable := by
  refine readable_of_form rfl (callable_atom rfl rfl) ?_
  intro e' hform _ r r' hr hr' heq
  cases e' with
  | param value' =>
    obtain ⟨hvalue, hrest⟩ := List.cons.inj heq
    cases hvalue
    exact ⟨rfl, hrest⟩
  | column _ _ | text _ | int _ | call _ _ | case _ _ _ | rowNumber _ _ | binary _ _ _ | isNull _ _ | inList _ _ =>
    cases hform

theorem readable_text (s : String) : (Expr.text s).Readable := by
  refine readable_of_form rfl (callable_atom rfl rfl) ?_
  intro e' hform _ r r' hr hr' heq
  cases e' with
  | text s' =>
    simp only [glyphs_textLiteral] at heq
    obtain ⟨rfl, hrest⟩ := quotedText_unique (hr.head?_ne punctuated_operandEnds rfl)
      (hr'.head?_ne punctuated_operandEnds rfl) heq
    exact ⟨rfl, hrest⟩
  | column _ _ | param _ | int _ | call _ _ | case _ _ _ | rowNumber _ _ | binary _ _ _ | isNull _ _ | inList _ _ =>
    cases hform

theorem readable_int (n : Int64) : (Expr.int n).Readable := by
  refine readable_of_form rfl (callable_atom rfl rfl) ?_
  intro e' hform _ r r' hr hr' heq
  cases e' with
  | int n' =>
    simp only [glyphs_int] at heq
    obtain ⟨hn, hrest⟩ := int_unique punctuated_operandEnds hr hr' heq
    cases Int64.toInt_inj.1 hn
    exact ⟨rfl, hrest⟩
  | column _ _ | param _ | text _ | call _ _ | case _ _ _ | rowNumber _ _ | binary _ _ _ | isNull _ _ | inList _ _ =>
    cases hform

/-! ## Lists of expressions -/

theorem piecesOfAll_eq_map (es : List Expr) : piecesOfAll es = es.map Expr.pieces := by
  induction es with
  | nil => rfl
  | cons e rest ih => rw [piecesOfAll, ih, List.map_cons]

theorem orderPieces_eq_map (terms : List (Expr × SortOrder)) :
    orderPieces terms = terms.map fun t => t.1.pieces ++ [.text (orderText t.2)] := by
  induction terms with
  | nil => rfl
  | cons t rest ih => rw [orderPieces, ih, List.map_cons]

theorem orderText_prefixFree (order order' : SortOrder) :
    (orderText order).toList <+: (orderText order').toList → order = order' := by
  cases order <;> cases order' <;> decide

theorem legible_orderTerm {t : Expr × SortOrder} (h : t.1.Readable) (ends : List String) :
    Legible (fun t : Expr × SortOrder => glyphs (t.1.pieces ++ [.text (orderText t.2)])) (fun t => t.1.Callable) ends
      t := by
  intro t' ht' r r' _ _ heq
  obtain ⟨e, order⟩ := t
  obtain ⟨e', order'⟩ := t'
  simp only [glyphs_append, glyphs_text, glyphs_nil, List.append_nil, List.append_assoc] at heq
  have hends (order : SortOrder) : orderText order ∈ exprEnds := by cases order <;> decide
  obtain ⟨rfl, horder⟩ := h.whole e' ht' _ _ (begins_typed (hends order) r) (begins_typed (hends order') r') heq
  obtain ⟨rfl, hrest⟩ := keyword_unique orderText_prefixFree horder
  exact ⟨rfl, hrest⟩

theorem legible_arguments {es : List Expr} (h : ∀ e ∈ es, e.Readable) (hes : ∀ e ∈ es, e.Callable) :
    Legible (fun es => glyphs (joinPieces ", " (piecesOfAll es))) (fun es => ∀ e ∈ es, e.Callable) [")"] es := by
  have hopen : ∀ e : Expr, e.Callable → ∀ r, ¬ Begins [")"] (glyphs e.pieces ++ r) :=
    fun e he r => ((opens_pieces he).append r).not_begins (by decide)
  have hlist := @legible_joinPieces Expr Expr.pieces Expr.Callable ", " [")"] (by decide) es
    (fun e he => (h e he).whole.mono (by decide)) hes hopen
  intro es' hes' r r' hr hr' heq
  simp only [piecesOfAll_eq_map] at heq
  exact hlist es' hes' r r' hr hr' heq

theorem legible_terms (keyword : String) (ends : List String) (hkeyword : Apart [keyword] ends)
    (hcomma : Apart [", "] ends) (hends : ends ⊆ exprEnds) {es : List Expr} (h : ∀ e ∈ es, e.Readable) :
    Legible (fun es => glyphs (clausePieces keyword ", " (piecesOfAll es))) (fun es => ∀ e ∈ es, e.Callable) ends
      es := by
  have hsub : ", " :: ends ⊆ exprEnds := List.cons_subset.2 ⟨by decide, hends⟩
  have hclause := @legible_clausePieces Expr Expr.pieces Expr.Callable ", " ends keyword hkeyword hcomma es
    fun e he => (h e he).whole.mono hsub
  intro es' hes' r r' hr hr' heq
  simp only [piecesOfAll_eq_map] at heq
  exact hclause es' hes' r r' hr hr' heq

theorem legible_orderTerms (keyword : String) (ends : List String) (hkeyword : Apart [keyword] ends)
    (hcomma : Apart [", "] ends) {terms : List (Expr × SortOrder)} (h : ∀ t ∈ terms, t.1.Readable) :
    Legible (fun terms => glyphs (clausePieces keyword ", " (orderPieces terms)))
      (fun terms => ∀ t ∈ terms, t.1.Callable) ends terms := by
  have hclause := @legible_clausePieces (Expr × SortOrder) (fun t => t.1.pieces ++ [.text (orderText t.2)])
    (fun t => t.1.Callable) ", " ends keyword hkeyword hcomma terms fun t ht => legible_orderTerm (h t ht) _
  intro terms' hterms' r r' hr hr' heq
  simp only [orderPieces_eq_map] at heq
  exact hclause terms' hterms' r r' hr hr' heq

theorem glyphs_windowPieces_cons (ps : List Piece) (partitionBy orderBy : List (List Piece)) :
    glyphs (windowPieces (ps :: partitionBy) orderBy) =
      glyphs (clausePieces "PARTITION BY " ", " (ps :: partitionBy)) ++
        glyphs (clausePieces " ORDER BY " ", " orderBy) := by
  cases orderBy with
  | nil => exact (List.append_nil _).symm
  | cons qs orderBy =>
    have hkeyword : typed " " ++ typed "ORDER BY " = typed " ORDER BY " := (typed_append " " "ORDER BY ").symm
    have hwindow : windowPieces (ps :: partitionBy) (qs :: orderBy) =
        clausePieces "PARTITION BY " ", " (ps :: partitionBy) ++
          .text " " :: .text "ORDER BY " :: joinPieces ", " (qs :: orderBy) := rfl
    rw [hwindow, glyphs_append, glyphs_text, glyphs_text, ← List.append_assoc (typed " "), hkeyword]
    rfl

theorem glyphs_windowPieces_nil (orderBy : List (List Piece)) :
    glyphs (windowPieces [] orderBy) = glyphs (clausePieces "ORDER BY " ", " orderBy) := by
  cases orderBy <;> rfl

theorem window_unique {partitionBy partitionBy' : List Expr} {orderBy orderBy' : List (Expr × SortOrder)}
    (hpartition : ∀ e ∈ partitionBy, e.Readable) (horder : ∀ t ∈ orderBy, t.1.Readable)
    (hpartition' : ∀ e ∈ partitionBy', e.Callable) (horder' : ∀ t ∈ orderBy', t.1.Callable) {r r' : List Glyph}
    (hr : Begins [")"] r) (hr' : Begins [")"] r')
    (h : glyphs (windowPieces (piecesOfAll partitionBy) (orderPieces orderBy)) ++ r =
      glyphs (windowPieces (piecesOfAll partitionBy') (orderPieces orderBy')) ++ r') :
    partitionBy = partitionBy' ∧ orderBy = orderBy' ∧ r = r' := by
  have hapart : Apart ["PARTITION BY "] ["ORDER BY ", ")"] := by decide
  have hpartitioned {e : Expr} {es : List Expr} {terms terms' : List (Expr × SortOrder)} {x y : List Glyph}
      (hx : Begins [")"] x) (heq : glyphs (windowPieces (piecesOfAll []) (orderPieces terms)) ++ x =
        glyphs (windowPieces (piecesOfAll (e :: es)) (orderPieces terms')) ++ y) : False := by
    have hbegins := begins_clausePieces "ORDER BY " ", " (orderPieces terms) hx
    rw [piecesOfAll, piecesOfAll, glyphs_windowPieces_nil, glyphs_windowPieces_cons, List.append_assoc,
      glyphs_clausePieces_cons, List.append_assoc] at heq
    rw [heq] at hbegins
    exact hapart.not_begins (begins_typed List.mem_cons_self _) hbegins
  cases partitionBy with
  | nil =>
    cases partitionBy' with
    | nil =>
      rw [piecesOfAll, glyphs_windowPieces_nil, glyphs_windowPieces_nil] at h
      have hterms := legible_orderTerms "ORDER BY " [")"] (by decide) (by decide) horder
      obtain ⟨rfl, hrest⟩ := hterms orderBy' horder' r r' hr hr' h
      exact ⟨rfl, rfl, hrest⟩
    | cons e es => exact (hpartitioned hr h).elim
  | cons e es =>
    cases partitionBy' with
    | nil => exact (hpartitioned hr' h.symm).elim
    | cons e' es' =>
      rw [piecesOfAll, piecesOfAll, glyphs_windowPieces_cons, glyphs_windowPieces_cons, List.append_assoc,
        List.append_assoc] at h
      have hpartitions := legible_terms "PARTITION BY " [" ORDER BY ", ")"] (by decide) (by decide) (by decide)
        hpartition
      obtain ⟨hes, horders⟩ := hpartitions (e' :: es') hpartition' _ _ (begins_clausePieces _ _ _ hr)
        (begins_clausePieces _ _ _ hr') h
      have hterms := legible_orderTerms " ORDER BY " [")"] (by decide) (by decide) horder
      obtain ⟨rfl, hrest⟩ := hterms orderBy' horder' r r' hr hr' horders
      exact ⟨hes, rfl, hrest⟩

/-! ## Expressions -/

theorem readable_call {function : String} {arguments : List Expr} (he : (Expr.call function arguments).Callable)
    (h : ∀ a ∈ arguments, a.Readable) : (Expr.call function arguments).Readable := by
  have hparen (function : String) (arguments : List Expr) (r : List Glyph) : ∀ g ∈ (typed "(" ++
      (glyphs (joinPieces ", " (piecesOfAll arguments)) ++ (typed ")" ++ r))).head?, g.isWord = false := by
    rintro g hg
    cases hg
    rfl
  refine readable_of_form rfl he ?_
  intro e' hform he' r r' hr hr' heq
  cases e' with
  | call function' arguments' =>
    simp only [glyphs_call, List.append_assoc] at heq
    obtain ⟨hfunction, harguments⟩ := List.forall_mem_cons.1 he
    obtain ⟨hfunction', harguments'⟩ := List.forall_mem_cons.1 he'
    obtain ⟨hnames, hlists⟩ := run_unique (isWord_of_isIdentifier hfunction).2 (isWord_of_isIdentifier hfunction').2
      (hparen function arguments r) (hparen function' arguments' r') heq
    cases typed_injective hnames
    have hends : ")" ∈ [")"] := List.mem_cons_self
    obtain ⟨rfl, hrest⟩ := legible_arguments h (callable_all.1 harguments) arguments' (callable_all.1 harguments') _ _
      (begins_typed hends r) (begins_typed hends r') (List.append_cancel_left hlists)
    exact ⟨rfl, List.append_cancel_left hrest⟩
  | column _ _ | param _ | text _ | int _ | case _ _ _ | rowNumber _ _ | binary _ _ _ | isNull _ _ | inList _ _ =>
    cases hform

theorem legible_elsePieces {otherwise : Option Expr} (h : ∀ e ∈ otherwise, e.Readable) :
    Legible (fun o => glyphs (elsePieces o)) (fun o => ∀ e ∈ o, e.Callable) [" END"] otherwise := by
  have hapart : Apart [" ELSE "] [" END"] := by decide
  intro otherwise' hotherwise' r r' hr hr' heq
  cases otherwise with
  | none =>
    cases otherwise' with
    | none => exact ⟨rfl, heq⟩
    | some e' => exact absurd (heq.trans (List.append_assoc _ _ _)) (hapart.ne hr _)
  | some e =>
    cases otherwise' with
    | none => exact absurd (heq.symm.trans (List.append_assoc _ _ _)) (hapart.ne hr' _)
    | some e' =>
      simp only [elsePieces, glyphs_text, List.append_assoc] at heq
      obtain ⟨rfl, hrest⟩ := (h e rfl).whole e' (hotherwise' e' rfl) r r' (hr.mono (by decide)) (hr'.mono (by decide))
        (List.append_cancel_left heq)
      exact ⟨rfl, hrest⟩

theorem readable_case {condition result : Expr} {otherwise : Option Expr}
    (he : (Expr.case condition result otherwise).Callable) (hcondition : condition.Readable) (hresult : result.Readable)
    (hotherwise : ∀ e ∈ otherwise, e.Readable) : (Expr.case condition result otherwise).Readable := by
  have helse (otherwise : Option Expr) (r : List Glyph) :
      Begins [" ELSE ", " END"] (glyphs (elsePieces otherwise) ++ (typed " END" ++ r)) := by
    cases otherwise with
    | none => exact begins_typed (by decide) r
    | some e =>
      rw [elsePieces, glyphs_text, List.append_assoc]
      exact begins_typed (by decide) _
  refine readable_of_form rfl he ?_
  intro e' hform he' r r' hr hr' heq
  cases e' with
  | case condition' result' otherwise' =>
    simp only [glyphs_case, List.append_assoc] at heq
    obtain ⟨hcondition', hparts⟩ := List.forall_mem_append.1 (List.forall_mem_cons.1 he').2
    obtain ⟨hresult', hotherwise'⟩ := List.forall_mem_append.1 hparts
    have hthen : " THEN " ∈ exprEnds := by decide
    have hend : " END" ∈ [" END"] := List.mem_cons_self
    obtain ⟨rfl, hresults⟩ := hcondition.whole condition' hcondition' _ _ (begins_typed hthen _) (begins_typed hthen _)
      (List.append_cancel_left heq)
    obtain ⟨rfl, helses⟩ := hresult.whole result' hresult' _ _ ((helse otherwise r).mono (by decide))
      ((helse otherwise' r').mono (by decide)) (List.append_cancel_left hresults)
    obtain ⟨rfl, hrest⟩ := legible_elsePieces hotherwise otherwise' (callable_else.1 hotherwise') _ _
      (begins_typed hend r) (begins_typed hend r') helses
    exact ⟨rfl, List.append_cancel_left hrest⟩
  | column _ _ | param _ | text _ | int _ | call _ _ | rowNumber _ _ | binary _ _ _ | isNull _ _ | inList _ _ =>
    cases hform

theorem readable_rowNumber {partitionBy : List Expr} {orderBy : List (Expr × SortOrder)}
    (he : (Expr.rowNumber partitionBy orderBy).Callable) (hpartition : ∀ e ∈ partitionBy, e.Readable)
    (horder : ∀ t ∈ orderBy, t.1.Readable) : (Expr.rowNumber partitionBy orderBy).Readable := by
  refine readable_of_form rfl he ?_
  intro e' hform he' r r' hr hr' heq
  cases e' with
  | rowNumber partitionBy' orderBy' =>
    simp only [glyphs_rowNumber, List.append_assoc] at heq
    obtain ⟨hpartition', horder'⟩ := List.forall_mem_append.1 (List.forall_mem_cons.1 he').2
    have hends : ")" ∈ [")"] := List.mem_cons_self
    obtain ⟨rfl, rfl, hrest⟩ := window_unique hpartition horder (callable_all.1 hpartition') (callable_order.1 horder')
      (begins_typed hends r) (begins_typed hends r') (List.append_cancel_left heq)
    exact ⟨rfl, List.append_cancel_left hrest⟩
  | column _ _ | param _ | text _ | int _ | call _ _ | case _ _ _ | binary _ _ _ | isNull _ _ | inList _ _ =>
    cases hform

theorem readable_binary {left right : Expr} {op : BinaryOperator} (he : (Expr.binary left op right).Callable)
    (hleft : left.Readable) (hright : right.Readable) : (Expr.binary left op right).Readable := by
  refine readable_of_whole he rfl (legible_whole hleft.operand ?_)
  intro e' he' hhead hjoint r r' hr hr' heq
  cases e' with
  | binary left' op' right' =>
    have hright' : right'.Callable := (List.forall_mem_append.1 (List.forall_mem_cons.1 he').2).2
    have hsame : left = left' := hhead
    cases hjoint
    obtain ⟨rfl, hrest⟩ := hright.operand right' hright' r r' (hr.mono exprEnds_subset) (hr'.mono exprEnds_subset) heq
    rw [hsame]
    exact ⟨rfl, hrest⟩
  | column _ _ | param _ | text _ | int _ | call _ _ | case _ _ _ | rowNumber _ _ | isNull _ _ | inList _ _ =>
    cases hjoint

theorem readable_isNull {operand : Expr} {negated : Bool} (he : (Expr.isNull operand negated).Callable)
    (h : operand.Readable) : (Expr.isNull operand negated).Readable := by
  refine readable_of_whole he rfl (legible_whole h.operand ?_)
  intro e' _ hhead hjoint r r' _ _ heq
  cases e' with
  | isNull operand' negated' =>
    have hsame : operand = operand' := hhead
    cases hjoint
    rw [hsame]
    exact ⟨rfl, heq⟩
  | column _ _ | param _ | text _ | int _ | call _ _ | case _ _ _ | rowNumber _ _ | binary _ _ _ | inList _ _ =>
    cases hjoint

theorem readable_inList {operand : Expr} {list : List Expr} (he : (Expr.inList operand list).Callable)
    (hoperand : operand.Readable) (hlist : ∀ e ∈ list, e.Readable) : (Expr.inList operand list).Readable := by
  refine readable_of_whole he rfl (legible_whole hoperand.operand ?_)
  intro e' he' hhead hjoint r r' _ _ heq
  cases e' with
  | inList operand' list' =>
    have hcallable := callable_all.1 (List.forall_mem_append.1 (List.forall_mem_cons.1 he).2).2
    have hcallable' := callable_all.1 (List.forall_mem_append.1 (List.forall_mem_cons.1 he').2).2
    have hsame : operand = operand' := hhead
    have hends : ")" ∈ [")"] := List.mem_cons_self
    simp only [Expr.rest, glyphs_append, glyphs_text, glyphs_nil, List.append_nil, List.append_assoc] at heq
    obtain ⟨rfl, hrest⟩ := legible_arguments hlist hcallable list' hcallable' _ _ (begins_typed hends r)
      (begins_typed hends r') heq
    rw [hsame]
    exact ⟨rfl, List.append_cancel_left hrest⟩
  | column _ _ | param _ | text _ | int _ | call _ _ | case _ _ _ | rowNumber _ _ | binary _ _ _ | isNull _ _ =>
    cases hjoint

mutual

/-- Every expression can be read back, by itself and as an operand. -/
theorem Expr.readable : ∀ e : Expr, e.Callable → e.Readable
  | .column table name, _ => readable_column table name
  | .param value, _ => readable_param value
  | .text s, _ => readable_text s
  | .int n, _ => readable_int n
  | .call _ arguments, h => readable_call h (readable_all arguments (List.forall_mem_cons.1 h).2)
  | .binary left _ right, h => by
    obtain ⟨hleft, hright⟩ := List.forall_mem_append.1 (List.forall_mem_cons.1 h).2
    exact readable_binary h (left.readable hleft) (right.readable hright)
  | .isNull operand _, h => readable_isNull h (operand.readable (List.forall_mem_cons.1 h).2)
  | .inList operand list, h => by
    obtain ⟨hoperand, hlist⟩ := List.forall_mem_append.1 (List.forall_mem_cons.1 h).2
    exact readable_inList h (operand.readable hoperand) (readable_all list hlist)
  | .case condition result otherwise, h => by
    obtain ⟨hcondition, hparts⟩ := List.forall_mem_append.1 (List.forall_mem_cons.1 h).2
    obtain ⟨hresult, hotherwise⟩ := List.forall_mem_append.1 hparts
    exact readable_case h (condition.readable hcondition) (result.readable hresult) (readable_else otherwise hotherwise)
  | .rowNumber partitionBy orderBy, h => by
    obtain ⟨hpartition, horder⟩ := List.forall_mem_append.1 (List.forall_mem_cons.1 h).2
    exact readable_rowNumber h (readable_all partitionBy hpartition) (readable_order orderBy horder)

theorem readable_all : ∀ es : List Expr, (∀ part ∈ partsOfAll es, part.isCallable = true) → ∀ e ∈ es, e.Readable
  | [], _ => nofun
  | e :: rest, h => by
    obtain ⟨he, hrest⟩ := List.forall_mem_append.1 h
    exact List.forall_mem_cons.2 ⟨e.readable he, readable_all rest hrest⟩

theorem readable_else : ∀ otherwise : Option Expr, (∀ part ∈ elseParts otherwise, part.isCallable = true) →
    ∀ e ∈ otherwise, e.Readable
  | none, _ => nofun
  | some e, h => by
    rintro d hd
    cases hd
    exact e.readable h

theorem readable_order : ∀ terms : List (Expr × SortOrder), (∀ part ∈ orderParts terms, part.isCallable = true) →
    ∀ t ∈ terms, t.1.Readable
  | [], _ => nofun
  | (e, _) :: rest, h => by
    obtain ⟨he, hrest⟩ := List.forall_mem_append.1 h
    exact List.forall_mem_cons.2 ⟨e.readable he, readable_order rest hrest⟩

end

end TreeQuery.Sql
