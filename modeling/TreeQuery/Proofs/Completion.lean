import TreeQuery.Proofs.Parsing

/-!
# Where a query stops being one

The reader looks at one token at a time, so what it refuses depends on what stands before and on nothing after it. It
also refuses no sooner than it has to: whatever it has read can be completed to a query (`completes_of_fault`), except
after the dot of a path that is too long already. So the token that is reported is the first one with which the text
cannot be the beginning of a query (`refusal_is_first`).

- The completions are built backwards over the moves of the reader: a state completes if a move leads from it to one
  that does (`Completes.of_move`), and open levels are closed one after the other (`completes_closed`).
- What the reader refuses, it refuses with any tokens after it, since tokens lead to one state at most
  (`Run.unique`).
-/

namespace TreeQuery.SyntaxTree

open Outcome Grammar

/-! ## Accepted tokens -/

/-- Whether tokens are those of a query; where they stand does not matter. -/
def Accepts (tokens : List Token) : Prop :=
  ∃ size lexemes tree, lexemes.map Lexeme.token = tokens ∧ ofLexemes size lexemes = .ok tree

theorem Run.split {s s' : State} {as bs : List Token} (h : Run s (as ++ bs) s') :
    ∃ middle, Run s as middle ∧ Run middle bs s' := by
  induction as generalizing s with
  | nil => exact ⟨s, .nil, h⟩
  | cons token as ih =>
    cases h with
    | cons move rest =>
      obtain ⟨middle, hbefore, hafter⟩ := ih rest
      exact ⟨middle, .cons move hbefore, hafter⟩

/-- Lexemes make a tree iff their tokens lead to the end of the root level. -/
theorem ofLexemes_eq_ok_iff_run {size : Nat} {lexemes : List Lexeme} {tree : SyntaxTree} :
    ofLexemes size lexemes = .ok tree ↔ Run .start (lexemes.map Lexeme.token) (.closed [] tree) := by
  constructor
  · intro h
    obtain ⟨s, hadvance, hend⟩ := bind_eq_ok.1 h
    cases conclude_eq_ok.1 hend
    exact advance_eq_ok.1 hadvance
  · intro h
    exact bind_eq_ok.2 ⟨_, advance_eq_ok.2 h, conclude_eq_ok.2 rfl⟩

theorem accepts_iff_run {tokens : List Token} : Accepts tokens ↔ ∃ tree, Run .start tokens (.closed [] tree) := by
  constructor
  · rintro ⟨size, lexemes, tree, rfl, h⟩
    exact ⟨tree, ofLexemes_eq_ok_iff_run.1 h⟩
  · rintro ⟨tree, h⟩
    have htokens : (tokens.map fun token => Lexeme.mk token 0 0).map Lexeme.token = tokens := by
      rw [List.map_map]
      exact List.map_id tokens
    refine ⟨0, _, tree, htokens, ofLexemes_eq_ok_iff_run.2 ?_⟩
    rw [htokens]
    exact h

/-! ## Completions -/

/-- Whether a query can be completed from a state. -/
def Completes (s : State) : Prop := ∃ tokens tree, Run s tokens (.closed [] tree)

theorem Completes.of_move {s s' : State} {token : Token} (move : Move s token s') (h : Completes s') : Completes s := by
  obtain ⟨tokens, tree, hrun⟩ := h
  exact ⟨token :: tokens, tree, .cons move hrun⟩

/-- A complete level is completed by closing the levels around it, the innermost first. -/
theorem completes_closed (outer : Outer) (level : SyntaxTree) : Completes (.closed outer level) := by
  induction outer generalizing level with
  | nil => exact ⟨[], level, .nil⟩
  | cons around outer ih => exact .of_move (.close .relation) (ih _)

theorem completes_of_ends {s : State} {outer : Outer} {fields : OpenFields} (h : Ends s outer fields) : Completes s :=
  .of_move (.close h) (completes_closed outer _)

theorem completes_field (outer : Outer) (fields : OpenFields) : Completes (.field outer fields) :=
  .of_move .wildcard (completes_of_ends .listed)

section Clauses

variable (outer : Outer) (level : SyntaxTree) (filter : OpenFilter) (op : Operator) (what : Paging)

theorem completes_filterClose (value : Value) : Completes (.filterClose filter op value) :=
  .of_move .filterClose (completes_closed _ _)

theorem completes_filterItems (items : List Value) : Completes (.filterItems filter op items) :=
  .of_move .closeList (completes_filterClose filter op _)

theorem completes_filterValue : Completes (.filterValue filter op) :=
  .of_move (.scalar (.int 0)) (completes_filterClose filter op _)

theorem completes_filterPath : Completes (.filterPath filter) :=
  .of_move (.operator (.compare .equal)) (completes_filterValue filter _)

theorem completes_filterField : Completes (.filterField outer level) :=
  .of_move (@Move.filterField outer level "id") (completes_filterPath _)

theorem completes_orderClose (field : String) (order : SortOrder) : Completes (.orderClose outer level field order) :=
  .of_move .orderClose (completes_closed _ _)

theorem completes_orderComma (field : String) : Completes (.orderComma outer level field) :=
  .of_move .orderComma (.of_move (.orderDirection .ascending) (completes_orderClose outer level field _))

theorem completes_orderField : Completes (.orderField outer level) :=
  .of_move (@Move.orderField outer level "id") (completes_orderComma outer level _)

theorem completes_countClose (n : UInt64) : Completes (.countClose what outer level n) :=
  .of_move .countClose (completes_closed _ _)

theorem completes_count : Completes (.count what outer level) :=
  .of_move (.countValue ⟨0, by decide⟩) (completes_countClose outer level what _)

theorem completes_modifier : Completes (.modifier outer level) :=
  .of_move (.count .limit) (.of_move .countOpen (completes_count outer level _))

end Clauses

/-- **Completions.** From every state that does not report a path that is too long, a query can be completed. -/
theorem completes_of_fault {s : State} (h : s.fault ≠ .pathTooLong) : Completes s := by
  cases s with
  | start => exact .of_move .query (.of_move .equals (.of_move .root (completes_field _ _)))
  | equals => exact .of_move .equals (.of_move .root (completes_field _ _))
  | root => exact .of_move .root (completes_field _ _)
  | field outer fields => exact completes_field outer fields
  | excluded outer fields => exact .of_move (@Move.excluded outer fields "id") (completes_of_ends .listed)
  | named outer fields name => exact completes_of_ends .named
  | listed outer fields => exact completes_of_ends .listed
  | closed outer level => exact completes_closed outer level
  | modifier outer level => exact completes_modifier outer level
  | filterOpen outer level => exact .of_move .filterOpen (completes_filterField outer level)
  | filterField outer level => exact completes_filterField outer level
  | filterPath filter => exact completes_filterPath filter
  | filterSegment filter =>
    have hlength : filter.path.length ≤ maxDepth := by
      refine Nat.not_lt.1 fun hlong => h ?_
      rw [State.fault, if_pos hlong]
    exact .of_move (.segment "id" hlength) (completes_filterPath _)
  | filterValue filter op => exact completes_filterValue filter op
  | filterItem filter op items => exact .of_move (.item (.int 0)) (completes_filterItems filter op _)
  | filterItems filter op items => exact completes_filterItems filter op items
  | filterClose filter op value => exact completes_filterClose filter op value
  | orderOpen outer level => exact .of_move .orderOpen (completes_orderField outer level)
  | orderField outer level => exact completes_orderField outer level
  | orderComma outer level name => exact completes_orderComma outer level name
  | orderDirection outer level name =>
    exact .of_move (.orderDirection .ascending) (completes_orderClose outer level name _)
  | orderClose outer level name order => exact completes_orderClose outer level name order
  | countOpen what outer level => exact .of_move .countOpen (completes_count outer level what)
  | count what outer level => exact completes_count outer level what
  | countClose what outer level n => exact completes_countClose outer level what n

/-! ## Refusals -/

/-- After a path that is too long every token is refused for the length of the path. -/
theorem step_of_pathTooLong {s : State} (h : s.fault = .pathTooLong) (token : Token) :
    s.step token = .error .pathTooLong := by
  cases s with
  | filterSegment filter =>
    have hlong : maxDepth < filter.path.length := by
      by_contra hlength
      rw [State.fault, if_neg hlength] at h
      cases h
    cases token with
    | ident name => exact if_pos hlong
    | _ => exact congrArg Except.error h
  | closed outer level => cases outer <;> cases h
  | _ => cases h

/-- Where the reader stops: at the first of some lexemes, or at the end of a text of `size` bytes. -/
def stopPlace (size : Nat) (lexemes : List Lexeme) : Nat := (lexemes.head?.map Lexeme.start).getD size

/-- Whether a state refuses the first of some lexemes, or the end if there is none. -/
def Refuses (s : State) (fault : GrammarFault) : List Lexeme → Prop
  | [] => s.finish = .error fault
  | lexeme :: _ => s.step lexeme.token = .error fault

theorem not_refuses_end {level : SyntaxTree} {fault : GrammarFault} : ¬ Refuses (.closed [] level) fault [] := nofun

theorem fault_of_pathTooLong {s : State} {fault : GrammarFault} {lexemes : List Lexeme} (h : Refuses s fault lexemes)
    (hs : s.fault = .pathTooLong) : fault = .pathTooLong := by
  cases lexemes with
  | nil =>
    have hfinish : s.finish = .error fault := h
    unfold State.finish at hfinish
    split at hfinish
    · cases hfinish
    · rw [hs] at hfinish
      cases hfinish
      rfl
  | cons lexeme rest =>
    have hstep : s.step lexeme.token = .error fault := h
    rw [step_of_pathTooLong hs] at hstep
    cases hstep
    rfl

/-- Lexemes on which the reader fails lead, up to one of them, to a state that refuses this one. -/
theorem refused_of_advance {err : Error} : ∀ {lexemes : List Lexeme} {s : State}, advance s lexemes = .error err →
    ∃ before lexeme after s' fault, lexemes = before ++ lexeme :: after ∧ Run s (before.map Lexeme.token) s' ∧
      s'.step lexeme.token = .error fault ∧ err = .malformed lexeme.start (.grammar fault (some lexeme.token))
  | [], _, h => nomatch h
  | lexeme :: rest, s, h => by
    rw [advance] at h
    split at h
    · rename_i next hstep
      obtain ⟨before, lexeme', after, s', fault, rfl, hrun, hrefused⟩ := refused_of_advance h
      exact ⟨lexeme :: before, lexeme', after, s', fault, rfl, .cons (move_of_step hstep) hrun, hrefused⟩
    · rename_i fault hstep
      cases h
      exact ⟨[], lexeme, rest, s, fault, rfl, .nil, hstep, rfl⟩

/-- Lexemes that do not make a tree have a first part after which the rest, or the end, is refused. -/
theorem refused_of_ofLexemes {size : Nat} {lexemes : List Lexeme} {err : Error}
    (h : ofLexemes size lexemes = .error err) :
    ∃ before after s fault, lexemes = before ++ after ∧ Run .start (before.map Lexeme.token) s ∧
      Refuses s fault after ∧
      err = .malformed (stopPlace size after) (.grammar fault (after.head?.map Lexeme.token)) := by
  rcases bind_eq_error.1 h with h | ⟨s, hrun, h⟩
  · obtain ⟨before, lexeme, after, s, fault, rfl, hrun, hstep, rfl⟩ := refused_of_advance h
    exact ⟨before, lexeme :: after, s, fault, rfl, hrun, hstep, rfl⟩
  · refine ⟨lexemes, [], s, ?_⟩
    unfold conclude at h
    split at h
    · cases h
    · rename_i fault hfinish
      cases h
      exact ⟨fault, (List.append_nil _).symm, advance_eq_ok.1 hrun, hfinish, rfl⟩

/-- What is refused after some tokens, is refused whatever follows it. -/
theorem not_accepts_of_refuses {s : State} {fault : GrammarFault} {tokens : List Token} {lexeme : Lexeme}
    {rest : List Lexeme} (hrun : Run .start tokens s) (h : Refuses s fault (lexeme :: rest)) (more : List Token) :
    ¬ Accepts (tokens ++ lexeme.token :: more) := by
  intro haccepts
  obtain ⟨tree, hquery⟩ := accepts_iff_run.1 haccepts
  obtain ⟨middle, hbefore, hafter⟩ := hquery.split
  cases hrun.unique hbefore
  cases hafter with
  | cons move _ =>
    have hstep : s.step lexeme.token = .error fault := h
    rw [step_of_move move] at hstep
    cases hstep

/-- **The reader stops at the first token that cannot stand.** If the tokens of a text are no query, and not for the
length of a path, then the reported place is that of a token or the end of the text; the tokens before it begin a
query, and if it is the end, then a longer one; and with the token at that place they begin none. -/
theorem refusal_is_first {text : String} {lexemes : List Lexeme} {err : Error}
    (htext : Token.tokenize text = .ok lexemes) (h : ofText text = .error err)
    (hpath : ∀ position found, err ≠ .malformed position (.grammar .pathTooLong found)) :
    ∃ before after fault, lexemes = before ++ after ∧
      err = .malformed (stopPlace text.utf8ByteSize after) (.grammar fault (after.head?.map Lexeme.token)) ∧
      (∃ more, Accepts (before.map Lexeme.token ++ more) ∧ (after = [] → more ≠ [])) ∧
      ∀ lexeme rest, after = lexeme :: rest → ∀ more, ¬ Accepts (before.map Lexeme.token ++ lexeme.token :: more) := by
  rw [ofText, htext] at h
  obtain ⟨before, after, s, fault, rfl, hrun, hrefuses, rfl⟩ := refused_of_ofLexemes h
  have hfault : s.fault ≠ .pathTooLong := by
    intro hs
    cases fault_of_pathTooLong hrefuses hs
    exact hpath _ _ rfl
  obtain ⟨more, tree, hmore⟩ := completes_of_fault hfault
  refine ⟨before, after, fault, rfl, rfl, ⟨more, accepts_iff_run.2 ⟨tree, hrun.append hmore⟩, ?_⟩, ?_⟩
  · rintro rfl rfl
    cases hmore
    exact not_refuses_end hrefuses
  · rintro lexeme rest rfl
    exact not_accepts_of_refuses hrun hrefuses

/-- A limit that is negative, inside of a relation. -/
theorem refusal_is_first_limit : ∃ lexemes, Token.tokenize "q=(id,steps(*).limit(-1))" = .ok lexemes ∧
    ofText "q=(id,steps(*).limit(-1))" =
      .error (.malformed 21 (.grammar (.expected (.count .limit)) (some (.int (-1))))) ∧
    ∃ before after, lexemes = before ++ after ∧ stopPlace 25 after = 21 ∧
      (∃ more, Accepts (before.map Lexeme.token ++ more)) ∧
      ∀ lexeme rest, after = lexeme :: rest → ∀ more, ¬ Accepts (before.map Lexeme.token ++ lexeme.token :: more) := by
  have htext : ∃ lexemes, Token.tokenize "q=(id,steps(*).limit(-1))" = .ok lexemes := ⟨_, rfl⟩
  obtain ⟨lexemes, htext⟩ := htext
  have herr : ofText "q=(id,steps(*).limit(-1))" =
      .error (.malformed 21 (.grammar (.expected (.count .limit)) (some (.int (-1))))) := rfl
  obtain ⟨before, after, fault, hlexemes, hplace, ⟨more, hmore, _⟩, hnone⟩ :=
    refusal_is_first htext herr fun _ _ h => by cases h
  have hsize : "q=(id,steps(*).limit(-1))".utf8ByteSize = 25 := by decide
  rw [hsize, Error.malformed.injEq] at hplace
  exact ⟨lexemes, htext, herr, before, after, hlexemes, hplace.1.symm, ⟨more, hmore⟩, hnone⟩

end TreeQuery.SyntaxTree
