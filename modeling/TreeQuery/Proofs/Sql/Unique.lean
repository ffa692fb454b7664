import TreeQuery.Proofs.Sql.Expressions
import TreeQuery.Proofs.Sql.Params

/-!
# Statements are uniquely readable

Different selects never make the same statement, and neither do different expressions; up to the values that are bound,
the text alone tells them apart (`statement_unique`).

A select is read from left to right. Each of its parts can be read back before what may follow it: its items
(`legible_item`), its sources and joins, which go down into the derived tables (`Select.legible`), its clauses
(`clauses_unique`) and its paging (`paging_unique`).
-/

namespace TreeQuery.Sql

/-! ## Paging -/

/-- The number that is written as the limit. -/
def limitNumber : Option UInt64 → Int
  | some limit => limit.toNat
  | none => -1

/-- What is written for the offset, behind the limit. -/
def offsetText : Option UInt64 → String
  | some offset => " OFFSET " ++ toString offset.toNat
  | none => ""

theorem limitNumber_injective {limit limit' : Option UInt64} (h : limitNumber limit = limitNumber limit') :
    limit = limit' := by
  cases limit with
  | none =>
    cases limit' with
    | none => rfl
    | some n => exact absurd (show (-1 : Int) = n.toNat from h) (by omega)
  | some m =>
    cases limit' with
    | none => exact absurd (show (m.toNat : Int) = -1 from h) (by omega)
    | some n => exact congrArg some (UInt64.toNat_inj.1 (Int.ofNat_inj.1 h))

theorem pagingText_eq {limit offset : Option UInt64} (h : limit ≠ none ∨ offset ≠ none) :
    pagingText limit offset = " LIMIT " ++ (toString (limitNumber limit) ++ offsetText offset) := by
  cases limit with
  | none =>
    cases offset with
    | none => exact h.elim (absurd rfl) (absurd rfl)
    | some n =>
      have hlimit : " LIMIT -1 OFFSET " = " LIMIT " ++ (toString (-1 : Int) ++ " OFFSET ") := by decide
      exact (congrArg (· ++ toString n.toNat) hlimit).trans
        (String.append_assoc.trans (congrArg (" LIMIT " ++ ·) String.append_assoc))
  | some m =>
    cases offset with
    | none => exact congrArg (" LIMIT " ++ ·) String.append_empty.symm
    | some n => exact String.append_assoc.trans String.append_assoc

theorem begins_paging (limit offset : Option UInt64) {ends : List String} {r : List Glyph} (hr : Begins ends r) :
    Begins (" LIMIT " :: ends) (typed (pagingText limit offset) ++ r) := by
  by_cases h : limit ≠ none ∨ offset ≠ none
  · rw [pagingText_eq h, typed_append, List.append_assoc]
    exact begins_typed List.mem_cons_self _
  · obtain ⟨hlimit, hoffset⟩ := not_or.1 h
    rw [Classical.not_not.1 hlimit, Classical.not_not.1 hoffset]
    exact hr.mono (List.subset_cons_self _ _)

theorem offset_unique {offset offset' : Option UInt64} {r r' : List Glyph} (hr : Begins [")"] r)
    (hr' : Begins [")"] r') (h : typed (offsetText offset) ++ r = typed (offsetText offset') ++ r') :
    offset = offset' ∧ r = r' := by
  have hapart : Apart [" OFFSET "] [")"] := by decide
  cases offset with
  | none =>
    cases offset' with
    | none => exact ⟨rfl, h⟩
    | some n =>
      rw [offsetText, offsetText, typed_append, List.append_assoc] at h
      exact absurd h (hapart.ne hr _)
  | some m =>
    cases offset' with
    | none =>
      rw [offsetText, offsetText, typed_append, List.append_assoc] at h
      exact absurd h.symm (hapart.ne hr' _)
    | some n =>
      simp only [offsetText, typed_append, List.append_assoc] at h
      obtain ⟨hmn, hrest⟩ := nat_unique (by decide) hr hr' (List.append_cancel_left h)
      cases UInt64.toNat_inj.1 hmn
      exact ⟨rfl, hrest⟩

theorem begins_offset (offset : Option UInt64) {ends : List String} {r : List Glyph} (hr : Begins ends r) :
    Begins (" OFFSET " :: ends) (typed (offsetText offset) ++ r) := by
  cases offset with
  | none => exact hr.mono (List.subset_cons_self _ _)
  | some n =>
    rw [offsetText, typed_append, List.append_assoc]
    exact begins_typed List.mem_cons_self _

theorem paging_unique {limit limit' offset offset' : Option UInt64} {r r' : List Glyph} (hr : Begins [")"] r)
    (hr' : Begins [")"] r') (h : typed (pagingText limit offset) ++ r = typed (pagingText limit' offset') ++ r') :
    limit = limit' ∧ offset = offset' ∧ r = r' := by
  have hapart : Apart [" LIMIT "] [")"] := by decide
  have hunpaged {limit offset : Option UInt64} (h : ¬ (limit ≠ none ∨ offset ≠ none)) : limit = none ∧ offset = none :=
    (not_or.1 h).imp Classical.not_not.1 Classical.not_not.1
  by_cases hpaged : limit ≠ none ∨ offset ≠ none
  · by_cases hpaged' : limit' ≠ none ∨ offset' ≠ none
    · simp only [pagingText_eq hpaged, pagingText_eq hpaged', typed_append, List.append_assoc] at h
      have hends : Punctuated [" OFFSET ", ")"] := by decide
      obtain ⟨hlimit, hoffset⟩ := int_unique hends (begins_offset offset hr) (begins_offset offset' hr')
        (List.append_cancel_left h)
      obtain ⟨rfl, hrest⟩ := offset_unique hr hr' hoffset
      exact ⟨limitNumber_injective hlimit, rfl, hrest⟩
    · obtain ⟨rfl, rfl⟩ := hunpaged hpaged'
      rw [pagingText_eq hpaged, typed_append, List.append_assoc] at h
      exact absurd h.symm (hapart.ne hr' _)
  · obtain ⟨rfl, rfl⟩ := hunpaged hpaged
    by_cases hpaged' : limit' ≠ none ∨ offset' ≠ none
    · rw [pagingText_eq hpaged', typed_append, List.append_assoc] at h
      exact absurd h (hapart.ne hr _)
    · obtain ⟨rfl, rfl⟩ := hunpaged hpaged'
      exact ⟨rfl, rfl, h⟩

/-! ## Clauses -/

/-- What may follow the clauses before it, from the conditions on. -/
def clauseEnds : List String := [" WHERE ", " GROUP BY ", " ORDER BY ", " LIMIT ", ")"]

theorem legible_item {item : Expr × Option String} (h : item.1.Readable) :
    Legible (fun item => glyphs (itemPieces item)) (fun item => item.1.Callable) [", ", " FROM "] item := by
  have hpunctuated : Punctuated [", ", " FROM "] := by decide
  have hapart : Apart [" AS "] [", ", " FROM "] := by decide
  have has : " AS " ∈ exprEnds := by decide
  have hlabelled (e : Expr) (label : String) (r : List Glyph) : glyphs (itemPieces (e, some label)) ++ r =
      glyphs e.pieces ++ (typed " AS " ++ (typed (quotedName label) ++ r)) := by
    simp only [itemPieces, glyphs_append, glyphs_text, glyphs_nil, typed_append, List.append_nil, List.append_assoc]
  intro item' hitem' r r' hr hr' heq
  obtain ⟨e, label⟩ := item
  obtain ⟨e', label'⟩ := item'
  cases label with
  | none =>
    cases label' with
    | none =>
      obtain ⟨rfl, hrest⟩ := h.whole e' hitem' r r' (hr.mono (by decide)) (hr'.mono (by decide)) heq
      exact ⟨rfl, hrest⟩
    | some label' =>
      simp only [hlabelled] at heq
      obtain ⟨_, hrest⟩ := h.whole e' hitem' r _ (hr.mono (by decide)) (begins_typed has _) heq
      exact absurd hrest (hapart.ne hr _)
  | some label =>
    cases label' with
    | none =>
      simp only [hlabelled] at heq
      obtain ⟨_, hrest⟩ := h.whole e' hitem' _ r' (begins_typed has _) (hr'.mono (by decide)) heq
      exact absurd hrest.symm (hapart.ne hr' _)
    | some label' =>
      simp only [hlabelled] at heq
      obtain ⟨rfl, hlabels⟩ := h.whole e' hitem' _ _ (begins_typed has _) (begins_typed has _) heq
      obtain ⟨rfl, hrest⟩ := quotedName_unique (hr.head?_ne hpunctuated rfl) (hr'.head?_ne hpunctuated rfl)
        (List.append_cancel_left hlabels)
      exact ⟨rfl, hrest⟩

theorem legible_items {items : List (Expr × Option String)} (h : ∀ item ∈ items, item.1.Readable)
    (hitems : ∀ item ∈ items, item.1.Callable) :
    Legible (fun items => glyphs (joinPieces ", " (items.map itemPieces)))
      (fun items => ∀ item ∈ items, item.1.Callable) [" FROM "] items := by
  refine legible_joinPieces (by decide) (fun item hitem => legible_item (h item hitem)) hitems ?_
  intro item hitem r
  obtain ⟨e, label⟩ := item
  have hopens : Opens (glyphs (itemPieces (e, label))) := by
    cases label with
    | none => exact opens_pieces hitem
    | some label =>
      rw [itemPieces, glyphs_append]
      exact (opens_pieces hitem).append _
  exact (hopens.append r).not_begins (by decide)

theorem legible_conditions {conditions : List Expr} (h : ∀ e ∈ conditions, e.Readable) :
    Legible (fun es => glyphs (clausePieces " WHERE " " AND " (es.map fun e => operandPieces e e.pieces)))
      (fun es => ∀ e ∈ es, e.Callable) [" GROUP BY ", " ORDER BY ", " LIMIT ", ")"] conditions :=
  legible_clausePieces (by decide) (by decide) fun e he => (h e he).operand.mono (by decide)

/-- What stands behind the joins of a select, as glyphs. -/
def clauseGlyphs (conditions groupBy : List Expr) (orderBy : List (Expr × SortOrder)) (limit offset : Option UInt64) :
    List Glyph :=
  glyphs (clausePieces " WHERE " " AND " (conditions.map fun e => operandPieces e e.pieces)) ++
    (glyphs (clausePieces " GROUP BY " ", " (piecesOfAll groupBy)) ++
      (glyphs (clausePieces " ORDER BY " ", " (orderPieces orderBy)) ++ typed (pagingText limit offset)))

theorem begins_clauses (conditions groupBy : List Expr) (orderBy : List (Expr × SortOrder))
    (limit offset : Option UInt64) {r : List Glyph} (hr : Begins [")"] r) :
    Begins clauseEnds (clauseGlyphs conditions groupBy orderBy limit offset ++ r) := by
  simp only [clauseGlyphs, List.append_assoc]
  have horder := begins_clausePieces " ORDER BY " ", " (orderPieces orderBy) (begins_paging limit offset hr)
  have hgroup := begins_clausePieces " GROUP BY " ", " (piecesOfAll groupBy) horder
  exact begins_clausePieces _ _ _ hgroup

theorem clauses_unique {conditions conditions' groupBy groupBy' : List Expr}
    {orderBy orderBy' : List (Expr × SortOrder)} {limit limit' offset offset' : Option UInt64}
    (hconditions : ∀ e ∈ conditions, e.Readable) (hgroup : ∀ e ∈ groupBy, e.Readable)
    (horder : ∀ t ∈ orderBy, t.1.Readable)
    (hconditions' : ∀ e ∈ conditions', e.Callable) (hgroup' : ∀ e ∈ groupBy', e.Callable)
    (horder' : ∀ t ∈ orderBy', t.1.Callable) {r r' : List Glyph} (hr : Begins [")"] r) (hr' : Begins [")"] r')
    (h : clauseGlyphs conditions groupBy orderBy limit offset ++ r =
      clauseGlyphs conditions' groupBy' orderBy' limit' offset' ++ r') :
    conditions = conditions' ∧ groupBy = groupBy' ∧ orderBy = orderBy' ∧ limit = limit' ∧ offset = offset' ∧
      r = r' := by
  simp only [clauseGlyphs, List.append_assoc] at h
  have hpaging := begins_paging limit offset hr
  have hpaging' := begins_paging limit' offset' hr'
  have horders := begins_clausePieces " ORDER BY " ", " (orderPieces orderBy) hpaging
  have horders' := begins_clausePieces " ORDER BY " ", " (orderPieces orderBy') hpaging'
  obtain ⟨rfl, hgroups⟩ := legible_conditions hconditions conditions' hconditions' _ _
    (begins_clausePieces " GROUP BY " ", " _ horders) (begins_clausePieces " GROUP BY " ", " _ horders') h
  obtain ⟨rfl, horderings⟩ := legible_terms " GROUP BY " [" ORDER BY ", " LIMIT ", ")"] (by decide) (by decide)
    (by decide) hgroup groupBy' hgroup' _ _ horders horders' hgroups
  obtain ⟨rfl, hpages⟩ := legible_orderTerms " ORDER BY " [" LIMIT ", ")"] (by decide) (by decide) horder orderBy'
    horder' _ _ hpaging hpaging' horderings
  obtain ⟨rfl, rfl, hrest⟩ := paging_unique hr hr' hpages
  exact ⟨rfl, rfl, rfl, rfl, rfl, hrest⟩

/-! ## Selects -/

/-- Whether all functions that a select calls are named without quotes. -/
def Select.Callable (s : Select) : Prop := ∀ part ∈ s.parts, part.isCallable = true

/-- Whether all functions that a source calls are named without quotes. -/
def SourceCallable (source : Source Select) : Prop := ∀ part ∈ sourceParts source, part.isCallable = true

/-- Whether all functions that some joins call are named without quotes. -/
def JoinsCallable (joins : List (Join Select)) : Prop := ∀ part ∈ joinsParts joins, part.isCallable = true

theorem joinText_prefixFree (kind kind' : JoinKind) :
    (joinText kind).toList <+: (joinText kind').toList → kind = kind' := by
  cases kind <;> cases kind' <;> decide

theorem glyphs_select (s : Select) : glyphs s.pieces =
    typed "SELECT " ++ (glyphs (joinPieces ", " (s.items.map itemPieces)) ++ (typed " FROM " ++
      (glyphs (sourcePieces s.source) ++ (glyphs (joinsPieces s.joins) ++
        clauseGlyphs s.conditions s.groupBy s.orderBy s.limit s.offset)))) := by
  obtain ⟨items, source, joins, conditions, groupBy, orderBy, limit, offset⟩ := s
  simp only [Select.pieces, glyphs_text, glyphs_append, glyphs_nil, List.append_nil, clauseGlyphs]

theorem glyphs_table (name label : String) : glyphs (sourcePieces (.table name label)) =
    typed (quotedName name) ++ (typed " AS " ++ typed (quotedName label)) := by
  simp only [sourcePieces, glyphs_text, glyphs_nil, List.append_nil, typed_append, List.append_assoc]

theorem glyphs_derived (query : Select) (label : String) : glyphs (sourcePieces (.derived query label)) =
    typed "(" ++ (glyphs query.pieces ++ (typed ")" ++ (typed " AS " ++ typed (quotedName label)))) := by
  simp only [sourcePieces, glyphs_append, glyphs_parenthesised, glyphs_text, glyphs_nil, List.append_nil, typed_append,
    List.append_assoc]

theorem glyphs_join (j : Join Select) (joins : List (Join Select)) : glyphs (joinsPieces (j :: joins)) =
    typed (joinText j.kind) ++ (glyphs (sourcePieces j.source) ++ (typed " ON " ++ (glyphs j.condition.pieces ++
      glyphs (joinsPieces joins)))) := by
  obtain ⟨kind, source, condition⟩ := j
  simp only [joinsPieces, glyphs_text, glyphs_append]

theorem begins_joins (joins : List (Join Select)) {r : List Glyph} (hr : Begins clauseEnds r) :
    Begins (" JOIN " :: " LEFT OUTER JOIN " :: clauseEnds) (glyphs (joinsPieces joins) ++ r) := by
  cases joins with
  | nil => exact hr.mono fun _ h => List.mem_cons_of_mem _ (List.mem_cons_of_mem _ h)
  | cons j joins =>
    rw [glyphs_join, List.append_assoc]
    refine begins_typed ?_ _
    cases j.kind with
    | inner => exact List.mem_cons_self
    | outer => exact List.mem_cons_of_mem _ List.mem_cons_self

/-- No clause begins like a join. -/
theorem ne_join {r : List Glyph} (hr : Begins clauseEnds r) (j : Join Select) (joins : List (Join Select))
    (x : List Glyph) : r ≠ glyphs (joinsPieces (j :: joins)) ++ x := by
  have hinner : Apart [" JOIN "] clauseEnds := by decide
  have houter : Apart [" LEFT OUTER JOIN "] clauseEnds := by decide
  rw [glyphs_join, List.append_assoc]
  cases j.kind with
  | inner => exact hinner.ne hr _
  | outer => exact houter.ne hr _

theorem callable_items {items : List (Expr × Option String)} :
    (∀ part ∈ partsOfAll (items.map Prod.fst), part.isCallable = true) ↔ ∀ item ∈ items, item.1.Callable := by
  rw [callable_all, List.forall_mem_map]

theorem label_unique {label label' : String} {ends : List String} (hends : Punctuated ends) {r r' : List Glyph}
    (hr : Begins ends r) (hr' : Begins ends r')
    (h : typed " AS " ++ (typed (quotedName label) ++ r) = typed " AS " ++ (typed (quotedName label') ++ r')) :
    label = label' ∧ r = r' :=
  quotedName_unique (hr.head?_ne hends rfl) (hr'.head?_ne hends rfl) (List.append_cancel_left h)

/-- A table begins with a quote, and a derived table with a parenthesis. -/
theorem table_ne_derived (name label label' : String) (query : Select) (r r' : List Glyph) :
    glyphs (sourcePieces (.table name label)) ++ r ≠ glyphs (sourcePieces (.derived query label')) ++ r' := by
  rw [glyphs_table, glyphs_derived, typed_quotedName]
  intro h
  have hhead : some (Glyph.char '"') = some (.char '(') := congrArg List.head? h
  exact absurd (Glyph.char.inj (Option.some.inj hhead)) (by decide)

mutual

/-- Every select can be read back. -/
theorem Select.legible : ∀ s : Select, s.Callable →
    Legible (fun s : Select => glyphs s.pieces) Select.Callable [")"] s
  | ⟨items, source, joins, conditions, groupBy, orderBy, limit, offset⟩, h => by
    intro s' h' r r' hr hr' heq
    obtain ⟨items', source', joins', conditions', groupBy', orderBy', limit', offset'⟩ := s'
    obtain ⟨hitems, h⟩ := List.forall_mem_append.1 h
    obtain ⟨hsource, h⟩ := List.forall_mem_append.1 h
    obtain ⟨hjoins, h⟩ := List.forall_mem_append.1 h
    obtain ⟨hconditions, h⟩ := List.forall_mem_append.1 h
    obtain ⟨hgroup, horder⟩ := List.forall_mem_append.1 h
    obtain ⟨hitems', h'⟩ := List.forall_mem_append.1 h'
    obtain ⟨hsource', h'⟩ := List.forall_mem_append.1 h'
    obtain ⟨hjoins', h'⟩ := List.forall_mem_append.1 h'
    obtain ⟨hconditions', h'⟩ := List.forall_mem_append.1 h'
    obtain ⟨hgroup', horder'⟩ := List.forall_mem_append.1 h'
    have hitems := callable_items.1 hitems
    have hclauses := begins_clauses conditions groupBy orderBy limit offset hr
    have hclauses' := begins_clauses conditions' groupBy' orderBy' limit' offset' hr'
    simp only [glyphs_select, List.append_assoc] at heq
    obtain ⟨rfl, hfrom⟩ := legible_items (fun item hitem => item.1.readable (hitems item hitem)) hitems items'
      (callable_items.1 hitems') _ _ (begins_typed List.mem_cons_self _) (begins_typed List.mem_cons_self _)
      (List.append_cancel_left heq)
    obtain ⟨rfl, hjoined⟩ := legible_source source hsource (by decide) source' hsource' _ _
      (begins_joins joins hclauses) (begins_joins joins' hclauses') (List.append_cancel_left hfrom)
    obtain ⟨rfl, hbehind⟩ := legible_joins joins hjoins joins' hjoins' _ _ hclauses hclauses' hjoined
    obtain ⟨rfl, rfl, rfl, rfl, rfl, hrest⟩ := clauses_unique (readable_all conditions hconditions)
      (readable_all groupBy hgroup) (readable_order orderBy horder) (callable_all.1 hconditions')
      (callable_all.1 hgroup') (callable_order.1 horder') hr hr' hbehind
    exact ⟨rfl, hrest⟩

theorem legible_source : ∀ source : Source Select, SourceCallable source → ∀ {ends : List String}, Punctuated ends →
    Legible (fun source => glyphs (sourcePieces source)) SourceCallable ends source
  | .table name label, _, ends, hends => by
    have has (x : List Glyph) : (typed " AS " ++ x).head? ≠ some (.char '"') :=
      (begins_typed (List.mem_singleton.2 rfl) x).head?_ne (show Punctuated [" AS "] by decide) rfl
    intro source' _ r r' hr hr' heq
    cases source' with
    | table name' label' =>
      simp only [glyphs_table, List.append_assoc] at heq
      obtain ⟨rfl, hlabels⟩ := quotedName_unique (has _) (has _) heq
      obtain ⟨rfl, hrest⟩ := label_unique hends hr hr' hlabels
      exact ⟨rfl, hrest⟩
    | derived query' label' => exact absurd heq (table_ne_derived name label label' query' r r')
  | .derived query label, h, ends, hends => by
    intro source' h' r r' hr hr' heq
    cases source' with
    | table name' label' => exact absurd heq.symm (table_ne_derived name' label' label query r' r)
    | derived query' label' =>
      simp only [glyphs_derived, List.append_assoc] at heq
      have hparen (x : List Glyph) : Begins [")"] (typed ")" ++ x) := begins_typed List.mem_cons_self x
      obtain ⟨rfl, hlabels⟩ := query.legible h query' h' _ _ (hparen _) (hparen _) (List.append_cancel_left heq)
      obtain ⟨rfl, hrest⟩ := label_unique hends hr hr' (List.append_cancel_left hlabels)
      exact ⟨rfl, hrest⟩

theorem legible_joins : ∀ joins : List (Join Select), JoinsCallable joins →
    Legible (fun joins => glyphs (joinsPieces joins)) JoinsCallable clauseEnds joins
  | [], _ => by
    intro joins' _ r r' hr _ heq
    cases joins' with
    | nil => exact ⟨rfl, heq⟩
    | cons j' rest' => exact absurd heq (ne_join hr j' rest' r')
  | ⟨kind, source, condition⟩ :: rest, h => by
    intro joins' h' r r' hr hr' heq
    cases joins' with
    | nil => exact absurd heq.symm (ne_join hr' _ rest r)
    | cons j' rest' =>
      obtain ⟨kind', source', condition'⟩ := j'
      obtain ⟨hsource, h⟩ := List.forall_mem_append.1 h
      obtain ⟨hcondition, hrest⟩ := List.forall_mem_append.1 h
      obtain ⟨hsource', h'⟩ := List.forall_mem_append.1 h'
      obtain ⟨hcondition', hrest'⟩ := List.forall_mem_append.1 h'
      simp only [glyphs_join, List.append_assoc] at heq
      have hon (x : List Glyph) : Begins [" ON "] (typed " ON " ++ x) := begins_typed List.mem_cons_self x
      obtain ⟨rfl, hsources⟩ := keyword_unique joinText_prefixFree heq
      obtain ⟨rfl, hons⟩ := legible_source source hsource (by decide) source' hsource' _ _ (hon _) (hon _) hsources
      obtain ⟨rfl, hjoins⟩ := (condition.readable hcondition).whole condition' hcondition' _ _
        ((begins_joins rest hr).mono (by decide)) ((begins_joins rest' hr').mono (by decide))
        (List.append_cancel_left hons)
      obtain ⟨rfl, hend⟩ := legible_joins rest hrest rest' hrest' r r' hr hr' hjoins
      exact ⟨rfl, hend⟩

end

/-! ## Statements -/

section Statements

variable {s s' : Select} {e e' : Expr}

/-- Different selects make different statements. -/
theorem Select.eq_of_statement_eq (hs : s.Callable) (hs' : s'.Callable) (h : s.statement = s'.statement) : s = s' := by
  have hglyphs : glyphs s.pieces = glyphs s'.pieces := glyphs_eq_of_statement_eq (s.tracked hs) (s'.tracked hs') h
  have hparen : Begins [")"] (typed ")" ++ []) := begins_typed List.mem_cons_self []
  exact (s.legible hs s' hs' _ _ hparen hparen (congrArg (· ++ (typed ")" ++ [])) hglyphs)).1

/-- Different expressions make different statements. -/
theorem Expr.eq_of_statement_eq (he : e.Callable) (he' : e'.Callable) (h : e.statement = e'.statement) : e = e' := by
  have hglyphs : glyphs e.pieces = glyphs e'.pieces := glyphs_eq_of_statement_eq (e.tracked he) (e'.tracked he') h
  have hparen : Begins exprEnds (typed ")" ++ []) := begins_typed (by decide) []
  exact ((e.readable he).whole e' he' _ _ hparen hparen (congrArg (· ++ (typed ")" ++ [])) hglyphs)).1

/-- Tracked pieces with one text make one statement if they bind one value everywhere. -/
theorem statement_map_const {ps qs : List Piece} (hps : Tracked ps) (hqs : Tracked qs)
    (h : (Statement.ofPieces ps).sql = (Statement.ofPieces qs).sql) (value : Value) :
    Statement.ofPieces (ps.map (Piece.mapValue fun _ => value)) =
      .ofPieces (qs.map (Piece.mapValue fun _ => value)) := by
  have hplaces : (placements 0 ps).map Prod.fst = (placements 0 qs).map Prod.fst := by
    rw [← hps.marks, ← hqs.marks, ← toList_sql_ofPieces, ← toList_sql_ofPieces, h]
  have hlength : (Statement.ofPieces ps).params.length = (Statement.ofPieces qs).params.length := by
    have hcount := congrArg List.length hplaces
    rw [List.length_map, List.length_map] at hcount
    rw [params_ofPieces 0, params_ofPieces 0, List.length_map, List.length_map, hcount]
  rw [ofPieces_map, ofPieces_map, h, List.map_const', List.map_const', hlength]

theorem Expr.Callable.mapParams (he : e.Callable) (f : Value → Value) : (e.mapParams f).Callable := by
  rw [Expr.Callable, Expr.parts_mapParams, List.forall_mem_map]
  intro part hpart
  rw [← he part hpart]
  cases part <;> rfl

theorem Select.Callable.mapParams (hs : s.Callable) (f : Value → Value) : (s.mapParams f).Callable := by
  rw [Select.Callable, Select.parts_mapParams, List.forall_mem_map]
  intro part hpart
  rw [← hs part hpart]
  cases part <;> rfl

/-- **Statements are uniquely readable.** Two selects whose functions are named without quotes make the same statement
only if they are the same, and the same text only if they are the same up to the values that they bind; and so do two
expressions. -/
theorem statement_unique :
    (∀ s s' : Select, s.Callable → s'.Callable → (s.statement = s'.statement ↔ s = s') ∧
      ∀ value, s.statement.sql = s'.statement.sql ↔ s.mapParams (fun _ => value) = s'.mapParams fun _ => value) ∧
    ∀ e e' : Expr, e.Callable → e'.Callable → (e.statement = e'.statement ↔ e = e') ∧
      ∀ value, e.statement.sql = e'.statement.sql ↔ e.mapParams (fun _ => value) = e'.mapParams fun _ => value := by
  refine ⟨fun s s' hs hs' => ⟨⟨Select.eq_of_statement_eq hs hs', congrArg _⟩, fun value => ⟨fun h => ?_, fun h => ?_⟩⟩,
    fun e e' he he' => ⟨⟨Expr.eq_of_statement_eq he he', congrArg _⟩, fun value => ⟨fun h => ?_, fun h => ?_⟩⟩⟩
  · refine Select.eq_of_statement_eq (hs.mapParams _) (hs'.mapParams _) ?_
    rw [Select.statement, Select.statement, Select.pieces_mapParams, Select.pieces_mapParams]
    exact statement_map_const (s.tracked hs) (s'.tracked hs') h value
  · have hsql := congrArg (fun s : Select => s.statement.sql) h
    simp only [statement_mapParams] at hsql
    exact hsql
  · refine Expr.eq_of_statement_eq (he.mapParams _) (he'.mapParams _) ?_
    rw [Expr.statement, Expr.statement, Expr.pieces_mapParams, Expr.pieces_mapParams]
    exact statement_map_const (e.tracked he) (e'.tracked he') h value
  · have hsql := congrArg (fun e : Expr => e.statement.sql) h
    simp only [Expr.statement_mapParams] at hsql
    exact hsql

end Statements

/-- A select without its limit makes another statement, one with other values the same text; and a chain of
operators is grouped as it was built. -/
theorem statement_unique_quiz : quizSelect.Callable ∧ ({ quizSelect with limit := none } : Select).Callable ∧
    quizSelect.statement ≠ ({ quizSelect with limit := none } : Select).statement ∧
    quizSelect.statement.sql = (quizSelect.mapParams fun _ => .int 0).statement.sql ∧
    (Expr.binary (.binary (.text "a") .concat (.text "b")) .concat (.text "c")).statement ≠
      (Expr.binary (.text "a") .concat (.binary (.text "b") .concat (.text "c"))).statement := by
  have hquiz : quizSelect.Callable := show ∀ part ∈ quizSelect.parts, part.isCallable = true by decide
  have hunlimited : ({ quizSelect with limit := none } : Select).Callable := hquiz
  have hleft : (Expr.binary (.binary (.text "a") .concat (.text "b")) .concat (.text "c")).Callable :=
    show ∀ part ∈ Expr.parts _, part.isCallable = true by decide
  have hright : (Expr.binary (.text "a") .concat (.binary (.text "b") .concat (.text "c"))).Callable :=
    show ∀ part ∈ Expr.parts _, part.isCallable = true by decide
  refine ⟨hquiz, hunlimited, fun h => ?_, ?_, fun h => ?_⟩
  · exact nomatch congrArg Select.limit ((statement_unique.1 _ _ hquiz hunlimited).1.1 h)
  · exact ((statement_unique.1 _ _ hquiz (hquiz.mapParams _)).2 (.int 0)).2 rfl
  · cases (statement_unique.2 _ _ hleft hright).1.1 h

end TreeQuery.Sql
