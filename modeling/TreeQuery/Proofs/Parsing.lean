import TreeQuery.Proofs.Grammar
import TreeQuery.Proofs.Outcome

/-!
# The reader and the grammar

The reader takes one token at a time, so it is compared with the grammar (`TreeQuery.Grammar`) in two directions, over
the moves of its state:

- what has been read is derived: `Reads` says of each state which tokens lead to it, a move keeps it
  (`reads_of_move`), and so does a run (`reads_of_run`);
- what is derived is read: there is a run over the tokens of each part of a derivation (`run_path` to `run_level`).

A state of the reader holds the levels that are still open, innermost first. Their fields and labels stand before the
level being read (`OuterRead`), so the first direction needs no induction over derivations; the second one follows them.
As tokens lead to one state at most and a tree has one derivation at most, the grammar is unambiguous.
-/

namespace TreeQuery.SyntaxTree

open Outcome Grammar

/-! ## Moves -/

/-- A state after a complete entry of a field list. -/
inductive Ends : State → Outer → OpenFields → Prop
  | named {outer fields label} : Ends (.named outer fields label) outer (fields ++ [.name label])
  | listed {outer fields} : Ends (.listed outer fields) outer fields
  | relation {outer fields label level} :
      Ends (.closed (⟨fields, label⟩ :: outer) level) outer (fields ++ [.relation label level])

/-- What each state does on the tokens that may come next. -/
inductive Move : State → Token → State → Prop
  | query : Move .start (.ident "q") .equals
  | equals : Move .equals (.comparison .equal) .root
  | root : Move .root (.symbol .openParen) (.field [] [])
  | name {outer fields label} : Move (.field outer fields) (.ident label) (.named outer fields label)
  | wildcard {outer fields} : Move (.field outer fields) (.symbol .star) (.listed outer (fields ++ [.wildcard]))
  | bang {outer fields} : Move (.field outer fields) (.symbol .bang) (.excluded outer fields)
  | excluded {outer fields label} :
      Move (.excluded outer fields) (.ident label) (.listed outer (fields ++ [.excluded label]))
  | relation {outer fields label} (h : outer.length < maxDepth) :
      Move (.named outer fields label) (.symbol .openParen) (.field (⟨fields, label⟩ :: outer) [])
  | comma {s outer fields} (h : Ends s outer fields) : Move s (.symbol .comma) (.field outer fields)
  | close {s outer fields} (h : Ends s outer fields) : Move s (.symbol .closeParen) (.closed outer ⟨fields, []⟩)
  | dot {outer level} : Move (.closed outer level) (.symbol .dot) (.modifier outer level)
  | filter {outer level} : Move (.modifier outer level) (.ident "filter") (.filterOpen outer level)
  | filterOpen {outer level} : Move (.filterOpen outer level) (.symbol .openParen) (.filterField outer level)
  | filterField {outer level label} :
      Move (.filterField outer level) (.ident label) (.filterPath ⟨outer, level, [label]⟩)
  | pathDot {filter} : Move (.filterPath filter) (.symbol .dot) (.filterSegment filter)
  | segment {outer level path} (label : String) (h : path.length ≤ maxDepth) :
      Move (.filterSegment ⟨outer, level, path⟩) (.ident label) (.filterPath ⟨outer, level, path ++ [label]⟩)
  | operator {filter} (op : Operator) : Move (.filterPath filter) (operatorToken op) (.filterValue filter op)
  | scalar {filter op} (l : Literal) : Move (.filterValue filter op) l.token (.filterClose filter op l.value)
  | openList {filter op} : Move (.filterValue filter op) (.symbol .openBracket) (.filterItem filter op [])
  | item {filter op items} (l : Literal) :
      Move (.filterItem filter op items) l.token (.filterItems filter op (items ++ [l.value]))
  | nextItem {filter op items} : Move (.filterItems filter op items) (.symbol .comma) (.filterItem filter op items)
  | closeList {filter op items} :
      Move (.filterItems filter op items) (.symbol .closeBracket) (.filterClose filter op (.list items))
  | filterClose {outer level path op value} : Move (.filterClose ⟨outer, level, path⟩ op value) (.symbol .closeParen)
      (.closed outer (addModifier level (.filter path op value)))
  | order {outer level} : Move (.modifier outer level) (.ident "order") (.orderOpen outer level)
  | orderOpen {outer level} : Move (.orderOpen outer level) (.symbol .openParen) (.orderField outer level)
  | orderField {outer level label} : Move (.orderField outer level) (.ident label) (.orderComma outer level label)
  | orderComma {outer level label} :
      Move (.orderComma outer level label) (.symbol .comma) (.orderDirection outer level label)
  | orderDirection {outer level label} (o : SortOrder) :
      Move (.orderDirection outer level label) (directionToken o) (.orderClose outer level label o)
  | orderClose {outer level label order} : Move (.orderClose outer level label order) (.symbol .closeParen)
      (.closed outer (addModifier level (.order label order)))
  | count {outer level} (what : Paging) :
      Move (.modifier outer level) (pagingToken what) (.countOpen what outer level)
  | countOpen {what outer level} : Move (.countOpen what outer level) (.symbol .openParen) (.count what outer level)
  | countValue {what outer level} (c : Count) :
      Move (.count what outer level) (.int c.n) (.countClose what outer level c.value)
  | countClose {what outer level n} : Move (.countClose what outer level n) (.symbol .closeParen)
      (.closed outer (addModifier level (countModifier what n)))

theorem step_of_move {s s' : State} {token : Token} (h : Move s token s') : s.step token = .ok s' := by
  cases h with
  | relation h => exact if_neg (Nat.not_le.2 h)
  | comma h => cases h <;> rfl
  | close h => cases h <;> rfl
  | segment label h => exact if_neg (Nat.not_lt.2 h)
  | operator op => cases op <;> rfl
  | scalar l => cases l <;> rfl
  | item l => cases l <;> rfl
  | orderDirection o => cases o <;> rfl
  | count what => cases what <;> rfl
  | countValue c =>
    simp only [State.step, count?, if_pos c.nonneg]
    rfl
  | _ => rfl

theorem exists_literal {token : Token} {value : Value} (h : scalar? token = some value) :
    ∃ l : Literal, l.token = token ∧ l.value = value := by
  cases token with
  | int n => cases h; exact ⟨.int n, rfl, rfl⟩
  | float x => cases h; exact ⟨.float x, rfl, rfl⟩
  | date d => cases h; exact ⟨.date d, rfl, rfl⟩
  | string s => cases h; exact ⟨.string s, rfl, rfl⟩
  | ident _ | comparison _ | symbol _ => cases h

theorem exists_count {token : Token} {n : UInt64} (h : count? token = some n) :
    ∃ c : Count, .int c.n = token ∧ c.value = n := by
  cases token with
  | int m =>
    rw [count?] at h
    split at h
    · rename_i hm
      cases h
      exact ⟨⟨m, hm⟩, rfl, rfl⟩
    · cases h
  | _ => cases h

theorem operatorToken_of_operator? {token : Token} {op : Operator} (h : operator? token = some op) :
    operatorToken op = token := by
  cases token with
  | comparison c => cases h; rfl
  | ident word =>
    simp only [operator?, Operator.ofKeyword?] at h
    repeat' split at h
    all_goals first | (cases h; subst_vars; rfl) | cases h
  | _ => cases h

theorem directionToken_of_sortOrder? {token : Token} {o : SortOrder} (h : sortOrder? token = some o) :
    directionToken o = token := by
  cases token with
  | ident word =>
    simp only [sortOrder?, SortOrder.ofKeyword?] at h
    repeat' split at h
    all_goals first | (cases h; subst_vars; rfl) | cases h
  | _ => cases h

theorem move_of_afterEntry {s s' : State} {outer : Outer} {fields : OpenFields} {token : Token}
    (hs : Ends s outer fields) (h : State.afterEntry outer fields token = .ok s') : Move s token s' := by
  unfold State.afterEntry at h
  split at h
  · cases h; exact .comma hs
  · cases h; exact .close hs
  · cases h

theorem move_of_afterLevel {s' : State} {outer : Outer} {level : SyntaxTree} {token : Token}
    (h : State.afterLevel outer level token = .ok s') : Move (.closed outer level) token s' := by
  unfold State.afterLevel at h
  split at h
  · cases h; exact .dot
  · split at h
    · cases h
    · exact move_of_afterEntry .relation h

theorem move_of_afterKeyword? {s' : State} {outer : Outer} {level : SyntaxTree} {word : String}
    (h : State.afterKeyword? outer level word = some s') : Move (.modifier outer level) (.ident word) s' := by
  unfold State.afterKeyword? at h
  split at h
  · cases h; subst_vars; exact .filter
  split at h
  · cases h; subst_vars; exact .order
  split at h
  · cases h; subst_vars; exact .count .limit
  split at h
  · cases h; subst_vars; exact .count .offset
  · cases h

/-- A step is one of the moves. -/
theorem move_of_step {s s' : State} {token : Token} (h : s.step token = .ok s') : Move s token s' := by
  unfold State.step at h
  -- one case for each alternative of the step, in their order
  split at h
  case h_1 =>
    split at h
    · cases h; subst_vars; exact .query
    · cases h
  case h_2 => cases h; exact .equals
  case h_3 => cases h; exact .root
  case h_4 => cases h; exact .name
  case h_5 => cases h; exact .wildcard
  case h_6 => cases h; exact .bang
  case h_7 => cases h; exact .excluded
  case h_8 =>
    split at h
    · cases h
    · cases h; exact .relation (Nat.not_le.1 ‹_›)
  case h_9 => exact move_of_afterEntry .named h
  case h_10 => exact move_of_afterEntry .listed h
  case h_11 => exact move_of_afterLevel h
  case h_12 =>
    split at h
    · cases h; exact move_of_afterKeyword? ‹_›
    · cases h
  case h_13 => cases h; exact .filterOpen
  case h_14 => cases h; exact .filterField
  case h_15 => cases h; exact .pathDot
  case h_16 =>
    split at h
    · rename_i hop
      cases h
      rw [← operatorToken_of_operator? hop]
      exact .operator _
    · cases h
  case h_17 =>
    split at h
    · cases h
    · cases h; exact .segment _ (Nat.not_lt.1 ‹_›)
  case h_18 => cases h; exact .openList
  case h_19 =>
    split at h
    · rename_i hvalue
      cases h
      obtain ⟨l, rfl, rfl⟩ := exists_literal hvalue
      exact .scalar l
    · cases h
  case h_20 =>
    split at h
    · rename_i hvalue
      cases h
      obtain ⟨l, rfl, rfl⟩ := exists_literal hvalue
      exact .item l
    · cases h
  case h_21 => cases h; exact .nextItem
  case h_22 => cases h; exact .closeList
  case h_23 => cases h; exact .filterClose
  case h_24 => cases h; exact .orderOpen
  case h_25 => cases h; exact .orderField
  case h_26 => cases h; exact .orderComma
  case h_27 =>
    split at h
    · rename_i horder
      cases h
      rw [← directionToken_of_sortOrder? horder]
      exact .orderDirection _
    · cases h
  case h_28 => cases h; exact .orderClose
  case h_29 => cases h; exact .countOpen
  case h_30 =>
    split at h
    · rename_i hcount
      cases h
      obtain ⟨c, rfl, rfl⟩ := exists_count hcount
      exact .countValue c
    · cases h
  case h_31 => cases h; exact .countClose
  case h_32 => cases h

/-- A state reaches another one by some tokens. -/
inductive Run : State → List Token → State → Prop
  | nil {s} : Run s [] s
  | cons {s next s' token tokens} (move : Move s token next) (rest : Run next tokens s') : Run s (token :: tokens) s'

theorem Run.append {s next s' : State} {as bs : List Token} (h : Run s as next) (h' : Run next bs s') :
    Run s (as ++ bs) s' := by
  induction h with
  | nil => exact h'
  | cons move _ ih => exact .cons move (ih h')

theorem Run.single {s s' : State} {token : Token} (h : Move s token s') : Run s [token] s' := .cons h .nil

/-- Reading lexemes is reading their tokens. -/
theorem advance_eq_ok {s s' : State} {lexemes : List Lexeme} :
    advance s lexemes = .ok s' ↔ Run s (lexemes.map Lexeme.token) s' := by
  induction lexemes generalizing s with
  | nil =>
    constructor
    · intro h
      cases h
      exact .nil
    · intro h
      cases h
      rfl
  | cons lexeme rest ih =>
    rw [advance, List.map_cons]
    constructor
    · intro h
      split at h
      · rename_i next hstep
        exact .cons (move_of_step hstep) (ih.1 h)
      · cases h
    · intro h
      cases h with
      | cons move run =>
        rw [step_of_move move]
        exact ih.2 run

/-! ## What has been read -/

/-- The tokens of one or more fields of a level behind `depth` relations. -/
def Listed (depth : Nat) (fields : OpenFields) (tokens : List Token) : Prop :=
  ∃ (first : FieldEntry Level) (more : List (FieldEntry Level)), FieldFits depth first ∧ FieldsFit depth more ∧
    fields = fieldTree first :: fieldTrees more ∧ tokens = fieldTokens first ++ moreTokens more

/-- The tokens up to the place of the next field, where `Before` holds of those before the level. -/
def FieldsAfter (Before : List Token → Prop) (depth : Nat) (fields : OpenFields) (tokens : List Token) : Prop :=
  ∃ before, Before before ∧ ((fields = [] ∧ tokens = before ++ [.symbol .openParen]) ∨
    ∃ list, Listed depth fields list ∧ tokens = before ++ .symbol .openParen :: (list ++ [.symbol .comma]))

/-- The tokens before a level inside others. -/
def OuterRead : Outer → List Token → Prop
  | [], tokens => tokens = [.ident "q", .comparison .equal]
  | ⟨fields, label⟩ :: outer, tokens => outer.length < maxDepth ∧
    ∃ before, FieldsAfter (OuterRead outer) outer.length fields before ∧ tokens = before ++ [.ident label]

/-- The tokens up to the place of the next field. -/
def FieldsRead (outer : Outer) : OpenFields → List Token → Prop := FieldsAfter (OuterRead outer) outer.length

/-- The tokens up to the end of a field. -/
def EntryRead (outer : Outer) (fields : OpenFields) (tokens : List Token) : Prop :=
  ∃ before list, OuterRead outer before ∧ Listed outer.length fields list ∧
    tokens = before ++ .symbol .openParen :: list

/-- The tokens up to the end of a field list or of a clause after it. -/
def LevelRead (outer : Outer) (level : SyntaxTree) (tokens : List Token) : Prop :=
  ∃ (before : List Token) (derived : Level), OuterRead outer before ∧ derived.Fits outer.length ∧ derived.tree = level ∧
    tokens = before ++ derived.tokens

/-- The tokens up to a place in a clause of which some have been read. -/
def ClauseRead (outer : Outer) (level : SyntaxTree) (begun tokens : List Token) : Prop :=
  ∃ before, LevelRead outer level before ∧ tokens = before ++ .symbol .dot :: begun

/-- The tokens up to a place in a filter, of which some have been read after the path. -/
def FilterRead (filter : OpenFilter) (begun tokens : List Token) : Prop :=
  ∃ first more, filter.path = first :: more ∧ more.length ≤ maxDepth ∧
    ClauseRead filter.outer filter.level
      (.ident "filter" :: .symbol .openParen :: .ident first :: (pathTokens more ++ begun)) tokens

/-- What a state knows of the tokens that have been read. -/
def Reads : State → List Token → Prop
  | .start, tokens => tokens = []
  | .equals, tokens => tokens = [.ident "q"]
  | .root, tokens => OuterRead [] tokens
  | .field outer fields, tokens => FieldsRead outer fields tokens
  | .excluded outer fields, tokens => ∃ before, FieldsRead outer fields before ∧ tokens = before ++ [.symbol .bang]
  | .named outer fields label, tokens => ∃ before, FieldsRead outer fields before ∧ tokens = before ++ [.ident label]
  | .listed outer fields, tokens => EntryRead outer fields tokens
  | .closed outer level, tokens => LevelRead outer level tokens
  | .modifier outer level, tokens => ClauseRead outer level [] tokens
  | .filterOpen outer level, tokens => ClauseRead outer level [.ident "filter"] tokens
  | .filterField outer level, tokens => ClauseRead outer level [.ident "filter", .symbol .openParen] tokens
  | .filterPath filter, tokens => FilterRead filter [] tokens
  | .filterSegment filter, tokens => FilterRead filter [.symbol .dot] tokens
  | .filterValue filter op, tokens => FilterRead filter [operatorToken op] tokens
  | .filterItem filter op items, tokens =>
    (items = [] ∧ FilterRead filter [operatorToken op, .symbol .openBracket] tokens) ∨
      ∃ (first : Literal) (more : List Literal), items = first.value :: more.map Literal.value ∧ FilterRead filter
        (operatorToken op :: .symbol .openBracket :: first.token :: (literalTokens more ++ [.symbol .comma])) tokens
  | .filterItems filter op items, tokens =>
    ∃ (first : Literal) (more : List Literal), items = first.value :: more.map Literal.value ∧ FilterRead filter
      (operatorToken op :: .symbol .openBracket :: first.token :: literalTokens more) tokens
  | .filterClose filter op value, tokens =>
    ∃ operand : Operand, operand.value = value ∧ FilterRead filter (operatorToken op :: operand.tokens) tokens
  | .orderOpen outer level, tokens => ClauseRead outer level [.ident "order"] tokens
  | .orderField outer level, tokens => ClauseRead outer level [.ident "order", .symbol .openParen] tokens
  | .orderComma outer level label, tokens =>
    ClauseRead outer level [.ident "order", .symbol .openParen, .ident label] tokens
  | .orderDirection outer level label, tokens =>
    ClauseRead outer level [.ident "order", .symbol .openParen, .ident label, .symbol .comma] tokens
  | .orderClose outer level label order, tokens => ClauseRead outer level
    [.ident "order", .symbol .openParen, .ident label, .symbol .comma, directionToken order] tokens
  | .countOpen what outer level, tokens => ClauseRead outer level [pagingToken what] tokens
  | .count what outer level, tokens => ClauseRead outer level [pagingToken what, .symbol .openParen] tokens
  | .countClose what outer level n, tokens =>
    ∃ c : Count, c.value = n ∧ ClauseRead outer level [pagingToken what, .symbol .openParen, .int c.n] tokens

section Reading

variable {s s' : State} {outer : Outer} {fields : OpenFields} {level : SyntaxTree} {filter : OpenFilter}
  {begun tokens : List Token} {token : Token}

theorem ClauseRead.concat (h : ClauseRead outer level begun tokens) (token : Token) :
    ClauseRead outer level (begun ++ [token]) (tokens ++ [token]) := by
  obtain ⟨before, hbefore, rfl⟩ := h
  exact ⟨before, hbefore, by simp⟩

theorem FilterRead.concat (h : FilterRead filter begun tokens) (token : Token) :
    FilterRead filter (begun ++ [token]) (tokens ++ [token]) := by
  obtain ⟨first, more, hpath, hmore, h⟩ := h
  refine ⟨first, more, hpath, hmore, ?_⟩
  have hnext := h.concat token
  simpa using hnext

/-- A field after those that have been read. -/
theorem FieldsRead.concat (h : FieldsRead outer fields tokens) (field : FieldEntry Level)
    (hfield : FieldFits outer.length field) :
    EntryRead outer (fields ++ [fieldTree field]) (tokens ++ fieldTokens field) := by
  obtain ⟨before, hbefore, ⟨rfl, rfl⟩ | ⟨list, ⟨first, more, hfirst, hmore, rfl, rfl⟩, rfl⟩⟩ := h
  · exact ⟨before, fieldTokens field, hbefore, ⟨field, [], hfield, trivial, rfl, by simp [moreTokens]⟩, by simp⟩
  · refine ⟨before, _, hbefore, ⟨first, more ++ [field], hfirst, ?_, ?_, rfl⟩, ?_⟩
    · rw [fieldsFit_iff] at hmore ⊢
      exact List.forall_mem_append.2 ⟨hmore, List.forall_mem_singleton.2 hfield⟩
    · simp [fieldTrees_eq_map]
    · simp [moreTokens_append, moreTokens]

/-- A clause after what has been read of its level. -/
theorem ClauseRead.complete (c : Clause) (h : ClauseRead outer level c.tokens tokens) (hc : c.Fits) :
    LevelRead outer (addModifier level c.modifier) tokens := by
  obtain ⟨_, ⟨before, ⟨first, more, clauses⟩, hbefore, ⟨hfirst, hmore, hclauses⟩, rfl, rfl⟩, rfl⟩ := h
  refine ⟨before, ⟨first, more, clauses ++ [c]⟩, hbefore, ⟨hfirst, hmore, ?_⟩, ?_, ?_⟩
  · exact List.forall_mem_append.2 ⟨hclauses, List.forall_mem_singleton.2 hc⟩
  · simp [Level.tree, addModifier]
  · simp [Level.tokens, clauseTokens]

theorem entryRead_of_ends (hs : Ends s outer fields) (h : Reads s tokens) : EntryRead outer fields tokens := by
  cases hs with
  | named =>
    obtain ⟨before, hbefore, rfl⟩ := h
    exact hbefore.concat (.name _) trivial
  | listed => exact h
  | relation =>
    obtain ⟨_, derived, ⟨hdepth, before, hbefore, rfl⟩, hfits, rfl, rfl⟩ := h
    rw [List.append_assoc]
    exact FieldsRead.concat hbefore (.relation _ derived) ⟨hdepth, hfits⟩

/-- **One step.** What a state knows of the tokens that have been read, the next one knows of these and one more. -/
theorem reads_of_move (hmove : Move s token s') (h : Reads s tokens) : Reads s' (tokens ++ [token]) := by
  cases hmove with
  | query => cases h; rfl
  | equals => cases h; rfl
  | root => exact ⟨tokens, h, .inl ⟨rfl, rfl⟩⟩
  | name => exact ⟨tokens, h, rfl⟩
  | wildcard => exact FieldsRead.concat h .wildcard trivial
  | bang => exact ⟨tokens, h, rfl⟩
  | excluded =>
    obtain ⟨before, hbefore, rfl⟩ := h
    rw [List.append_assoc]
    exact hbefore.concat (.excluded _) trivial
  | relation hdepth =>
    obtain ⟨before, hbefore, rfl⟩ := h
    exact ⟨_, ⟨hdepth, before, hbefore, rfl⟩, .inl ⟨rfl, rfl⟩⟩
  | comma hs =>
    obtain ⟨before, list, hbefore, hlist, rfl⟩ := entryRead_of_ends hs h
    exact ⟨before, hbefore, .inr ⟨list, hlist, by simp⟩⟩
  | close hs =>
    obtain ⟨before, list, hbefore, ⟨first, more, hfirst, hmore, rfl, rfl⟩, rfl⟩ := entryRead_of_ends hs h
    exact ⟨before, ⟨first, more, []⟩, hbefore, ⟨hfirst, hmore, by simp⟩, rfl, by simp [Level.tokens, clauseTokens]⟩
  | dot => exact ⟨tokens, h, rfl⟩
  | filter => exact h.concat _
  | filterOpen => exact h.concat _
  | filterField => exact ⟨_, [], rfl, Nat.zero_le _, h.concat _⟩
  | pathDot => exact h.concat _
  | segment label hlength =>
    obtain ⟨first, more, rfl, _, h⟩ := h
    refine ⟨first, more ++ [label], rfl, ?_, ?_⟩
    · rw [List.length_append]
      exact hlength
    · have hnext := h.concat (.ident label)
      simpa [pathTokens] using hnext
  | operator op => exact h.concat _
  | scalar l => exact ⟨.scalar l, rfl, h.concat _⟩
  | openList => exact .inl ⟨rfl, h.concat _⟩
  | item l =>
    rcases h with ⟨rfl, h⟩ | ⟨first, more, rfl, h⟩
    · exact ⟨l, [], rfl, h.concat _⟩
    · refine ⟨first, more ++ [l], by simp, ?_⟩
      have hnext := h.concat l.token
      simpa [literalTokens] using hnext
  | nextItem =>
    obtain ⟨first, more, hitems, h⟩ := h
    exact .inr ⟨first, more, hitems, h.concat _⟩
  | closeList =>
    obtain ⟨first, more, rfl, h⟩ := h
    exact ⟨.list first more, rfl, h.concat _⟩
  | filterClose =>
    obtain ⟨operand, rfl, first, more, rfl, hmore, h⟩ := h
    refine ClauseRead.complete (.filter first more _ operand) ?_ hmore
    have hnext := h.concat (.symbol .closeParen)
    simpa [Clause.tokens] using hnext
  | order => exact h.concat _
  | orderOpen => exact h.concat _
  | orderField => exact h.concat _
  | orderComma => exact h.concat _
  | orderDirection o => exact h.concat _
  | orderClose => exact ClauseRead.complete (.order _ _) (h.concat _) trivial
  | count what => exact h.concat _
  | countOpen => exact h.concat _
  | countValue c => exact ⟨c, rfl, h.concat _⟩
  | countClose =>
    obtain ⟨c, rfl, h⟩ := h
    exact ClauseRead.complete (.count _ c) (h.concat _) trivial

/-- **A run.** What the state at the end knows of all tokens. -/
theorem reads_of_run (hrun : Run s tokens s') {before : List Token} (h : Reads s before) :
    Reads s' (before ++ tokens) := by
  induction hrun generalizing before with
  | nil => rw [List.append_nil]; exact h
  | cons move _ ih =>
    have hnext := ih (reads_of_move move h)
    rwa [List.append_assoc] at hnext

end Reading

/-! ## Reading what is derived -/

section Deriving

variable {outer : Outer} {fields : OpenFields} {level : SyntaxTree} {op : Operator}

theorem run_path (path : List String) {more : List String} (h : path.length + more.length ≤ maxDepth + 1) :
    Run (.filterPath ⟨outer, level, path⟩) (pathTokens more) (.filterPath ⟨outer, level, path ++ more⟩) := by
  induction more generalizing path with
  | nil => rw [List.append_nil]; exact .nil
  | cons label more ih =>
    rw [List.length_cons] at h
    have hrest := ih (path ++ [label]) (by rw [List.length_append, List.length_singleton]; omega)
    rw [List.append_assoc, List.singleton_append] at hrest
    exact .cons .pathDot (.cons (.segment label (by omega)) hrest)

theorem run_literals (filter : OpenFilter) (op : Operator) (items : List Value) (more : List Literal) :
    Run (.filterItems filter op items) (literalTokens more)
      (.filterItems filter op (items ++ more.map Literal.value)) := by
  induction more generalizing items with
  | nil => rw [List.map_nil, List.append_nil]; exact .nil
  | cons l more ih =>
    have hrest := ih (items ++ [l.value])
    rw [List.append_assoc, List.singleton_append] at hrest
    exact .cons .nextItem (.cons (.item l) hrest)

theorem run_operand {filter : OpenFilter} (operand : Operand) :
    Run (.filterValue filter op) operand.tokens (.filterClose filter op operand.value) := by
  cases operand with
  | scalar l => exact .single (.scalar l)
  | list first more =>
    have hitems := run_literals filter op [first.value] more
    exact .cons .openList (.cons (.item first) (hitems.append (.single .closeList)))

theorem run_clause {c : Clause} (h : c.Fits) :
    Run (.closed outer level) (.symbol .dot :: c.tokens) (.closed outer (addModifier level c.modifier)) := by
  refine .cons .dot ?_
  cases c with
  | filter first more op operand =>
    have hpath : Run (.filterPath ⟨outer, level, [first]⟩) (pathTokens more)
        (.filterPath ⟨outer, level, first :: more⟩) := by
      have hlength : more.length ≤ maxDepth := h
      exact run_path [first] (by rw [List.length_singleton]; omega)
    refine .cons .filter (.cons .filterOpen (.cons .filterField (hpath.append ?_)))
    exact .cons (.operator op) ((run_operand operand).append (.single .filterClose))
  | order field direction =>
    exact .cons .order (.cons .orderOpen (.cons .orderField (.cons .orderComma
      (.cons (.orderDirection direction) (.single .orderClose)))))
  | count what n =>
    exact .cons (.count what) (.cons .countOpen (.cons (.countValue n) (.single .countClose)))

theorem run_clauses {clauses : List Clause} (h : ∀ c ∈ clauses, c.Fits) :
    Run (.closed outer level) (clauseTokens clauses)
      (.closed outer { level with modifiers := level.modifiers ++ clauses.map Clause.modifier }) := by
  induction clauses generalizing level with
  | nil =>
    obtain ⟨fields, modifiers⟩ := level
    simpa [clauseTokens] using Run.nil
  | cons c clauses ih =>
    obtain ⟨hc, hrest⟩ := List.forall_mem_cons.1 h
    have hclause : Run (.closed outer level) (.symbol .dot :: c.tokens)
        (.closed outer (addModifier level c.modifier)) := run_clause hc
    have hrun := hclause.append (ih hrest)
    simpa [clauseTokens, addModifier] using hrun

mutual

/-- A state before a level reads what is derived for the level. -/
theorem run_level : ∀ (derived : Level) (outer : Outer) {s : State}, derived.Fits outer.length →
    Move s (.symbol .openParen) (.field outer []) → Run s derived.tokens (.closed outer derived.tree)
  | ⟨first, more, clauses⟩, outer, s, ⟨hfirst, hmore, hclauses⟩, hopen => by
    obtain ⟨s₁, hrun₁, hs₁⟩ := run_field first outer [] hfirst
    obtain ⟨s₂, hrun₂, hs₂⟩ := run_fields more hmore hs₁
    exact .cons hopen (hrun₁.append (hrun₂.append (.cons (.close hs₂) (run_clauses hclauses))))

/-- A state before a field reads it, and is ready for what follows. -/
theorem run_field : ∀ (field : FieldEntry Level) (outer : Outer) (fields : OpenFields), FieldFits outer.length field →
    ∃ s, Run (.field outer fields) (fieldTokens field) s ∧ Ends s outer (fields ++ [fieldTree field])
  | .name _, _, _, _ => ⟨_, .single .name, .named⟩
  | .excluded _, _, _, _ => ⟨_, .cons .bang (.single .excluded), .listed⟩
  | .wildcard, _, _, _ => ⟨_, .single .wildcard, .listed⟩
  | .relation label derived, outer, fields, ⟨hdepth, hfits⟩ =>
    ⟨_, .cons .name (run_level derived (⟨fields, label⟩ :: outer) hfits (.relation hdepth)), .relation⟩

theorem run_fields : ∀ (more : List (FieldEntry Level)) {outer : Outer} {fields : OpenFields} {s : State},
    FieldsFit outer.length more → Ends s outer fields →
      ∃ s', Run s (moreTokens more) s' ∧ Ends s' outer (fields ++ fieldTrees more)
  | [], _, _, s, _, hs => ⟨s, .nil, by rw [fieldTrees, List.append_nil]; exact hs⟩
  | field :: rest, outer, fields, s, ⟨hfield, hrest⟩, hs => by
    obtain ⟨s₁, hrun₁, hs₁⟩ := run_field field outer fields hfield
    obtain ⟨s₂, hrun₂, hs₂⟩ := run_fields rest hrest hs₁
    rw [List.append_assoc, List.singleton_append] at hs₂
    exact ⟨s₂, .cons (.comma hs) (hrun₁.append hrun₂), hs₂⟩

end

end Deriving

/-! ## Queries -/

/-- A derived query is read to the end of its root level. -/
theorem run_query {root : Level} (h : root.Fits 0) : Run .start (queryTokens root) (.closed [] root.tree) :=
  .cons .query (.cons .equals (run_level root [] h .root))

theorem finish_eq_ok {s : State} {tree : SyntaxTree} : s.finish = .ok tree ↔ s = .closed [] tree := by
  constructor
  · intro h
    unfold State.finish at h
    split at h
    · cases h; rfl
    · cases h
  · rintro rfl
    rfl

/-- The text ends after its root level. -/
theorem conclude_eq_ok {size : Nat} {s : State} {tree : SyntaxTree} :
    conclude size s = .ok tree ↔ s = .closed [] tree := by
  rw [← finish_eq_ok, conclude]
  split <;> simp [*]

/-- A query is read to a tree iff its tokens are derived for the tree. -/
theorem ofLexemes_eq_ok {size : Nat} {lexemes : List Lexeme} {tree : SyntaxTree} :
    ofLexemes size lexemes = .ok tree ↔
      ∃ root : Level, root.Fits 0 ∧ queryTokens root = lexemes.map Lexeme.token ∧ root.tree = tree := by
  constructor
  · intro h
    obtain ⟨s, hadvance, hend⟩ := bind_eq_ok.1 h
    cases conclude_eq_ok.1 hend
    have hread : LevelRead [] tree (lexemes.map Lexeme.token) :=
      reads_of_run (advance_eq_ok.1 hadvance) (rfl : Reads .start [])
    obtain ⟨_, root, rfl, hfits, htree, htokens⟩ := hread
    exact ⟨root, hfits, htokens.symm, htree⟩
  · rintro ⟨root, hfits, htokens, rfl⟩
    have hrun := run_query hfits
    rw [htokens] at hrun
    exact bind_eq_ok.2 ⟨_, advance_eq_ok.2 hrun, conclude_eq_ok.2 rfl⟩

/-- Tokens lead from a state to one state at most. -/
theorem Run.unique {s a b : State} {tokens : List Token} (ha : Run s tokens a) (hb : Run s tokens b) : a = b := by
  induction ha with
  | nil => cases hb; rfl
  | cons move _ ih =>
    cases hb with
    | cons move' rest =>
      have hnext := (step_of_move move).symm.trans (step_of_move move')
      cases hnext
      exact ih rest

/-- The grammar is unambiguous. -/
theorem queryTokens_inj {a b : Level} (ha : a.Fits 0) (hb : b.Fits 0) (h : queryTokens a = queryTokens b) : a = b := by
  have hrun := run_query hb
  rw [← h] at hrun
  have hstate := (run_query ha).unique hrun
  rw [State.closed.injEq] at hstate
  exact Level.tree_injective hstate.2

/-- **The reader accepts exactly the grammar.** A text that can be cut into tokens has a syntax tree iff the grammar
derives its tokens, within the limits, for the tree; and no tokens have two derivations within the limits. -/
theorem ofText_iff_derived {text : String} {lexemes : List Lexeme} (h : Token.tokenize text = .ok lexemes) :
    (∀ tree, ofText text = .ok tree ↔
      ∃ root : Level, root.Fits 0 ∧ queryTokens root = lexemes.map Lexeme.token ∧ root.tree = tree) ∧
    ∀ root root' : Level, root.Fits 0 → root'.Fits 0 → queryTokens root = queryTokens root' → root = root' := by
  refine ⟨fun tree => ?_, fun root root' => queryTokens_inj⟩
  rw [ofText, h]
  exact ofLexemes_eq_ok

theorem ofText_iff_derived_steps :
    ofText "q=(title,steps(*,!note).filter(task.level>=2).limit(5))" = .ok
      ⟨[.name "title", .relation "steps" ⟨[.wildcard, .excluded "note"],
        [.filter ["task", "level"] (.compare .greaterOrEqual) (.int 2), .limit 5]⟩], []⟩ := by
  have htokens : ∃ lexemes, Token.tokenize "q=(title,steps(*,!note).filter(task.level>=2).limit(5))" = .ok lexemes ∧
      lexemes.map Lexeme.token = queryTokens ⟨.name "title", [.relation "steps" ⟨.wildcard, [.excluded "note"],
        [.filter "task" ["level"] (.compare .greaterOrEqual) (.scalar (.int 2)), .count .limit ⟨5, by decide⟩]⟩], []⟩ :=
    ⟨_, rfl, rfl⟩
  obtain ⟨lexemes, hlexemes, hderived⟩ := htokens
  exact ((ofText_iff_derived hlexemes).1 _).2 ⟨_, by simp [Level.Fits, FieldsFit, FieldFits, Clause.Fits, maxDepth],
    hderived.symm, rfl⟩

end TreeQuery.SyntaxTree
