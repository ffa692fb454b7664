import TreeQuery.CommandLine.Display
import TreeQuery.Proofs.Blame
import TreeQuery.Proofs.Completion
import TreeQuery.Proofs.Tiling

/-!
# Where the fault of a query is shown

A text that is no query has its fault in the text itself, between two of its characters, so that the mark under it
stands where it should (`ofText_fault_place`).

- The lexer stops at the first character of what it cannot read (`exists_of_progress`). A token that it has found
  before ends there or sooner, so the text up to this place is cut into the same tokens: `Scans.of_append` takes away
  what comes later.
- The reader stops at a token or at the end (`refused_of_ofLexemes`), and tokens start between characters (`Cuts`).
- Nothing fails after that: every filter that is read names a field (`Level.namesFields`).
-/

namespace TreeQuery

open Text

/-! ## Characters and bytes -/

theorem CommandLine.charactersIn?_byteLength (before after : List Char) :
    charactersIn? (before ++ after) (byteLength before) = some before.length := by
  induction before with
  | nil => rw [byteLength, charactersIn?]; rfl
  | cons c before ih =>
    obtain ⟨n, hn⟩ := Nat.exists_eq_add_one_of_ne_zero (Nat.ne_of_gt (Nat.add_pos_left c.utf8Size_pos
      (byteLength before)))
    have hrest : n + 1 - c.utf8Size = byteLength before := by omega
    rw [byteLength, hn, List.cons_append, charactersIn?, if_pos (by omega), hrest, ih]
    rfl

theorem Text.utf8ByteSize_eq_byteLength (s : String) : s.utf8ByteSize = byteLength s.toList := by
  rw [← Token.utf8Len_eq_byteLength, ← String.utf8ByteSize_ofList, String.ofList_toList]

/-- The end of a first part of a text is a place between two characters, and the mark stands there. -/
theorem CommandLine.mark_append (before after : String) :
    before.utf8ByteSize ≤ (before ++ after).utf8ByteSize ∧
      String.Pos.Raw.IsValid (before ++ after) ⟨before.utf8ByteSize⟩ ∧
      charactersIn? (before ++ after).toList before.utf8ByteSize = some before.length ∧
      markColumn (before ++ after) before.utf8ByteSize = before.length := by
  have hcount : charactersIn? (before ++ after).toList before.utf8ByteSize = some before.length := by
    rw [utf8ByteSize_eq_byteLength, String.toList_append, charactersIn?_byteLength, String.length_toList]
  refine ⟨?_, String.Pos.Raw.isValid_iff_exists_append.2 ⟨before, after, rfl, rfl⟩, hcount, ?_⟩
  · rw [String.utf8ByteSize_append]
    exact Nat.le_add_right _ _
  · rw [markColumn, hcount]
    rfl

/-! ## The lexer -/

namespace Token

variable {cs : List Char} {skip offset : Nat} {err : Error} {text : String}

/-- The lexemes at the start of a text, and the error that ends them if the text is not at its end there. -/
def progress : List Char → (skip offset : Nat) → List Lexeme × Option Error
  | [], _, _ => ([], none)
  | c :: rest, skip + 1, offset => progress rest skip (offset + c.utf8Size)
  | c :: rest, 0, offset =>
    if isBlank c then progress rest 0 (offset + c.utf8Size)
    else
      match scan c rest with
      | .error fault => ([], some (.malformed offset (.lexical fault)))
      | .ok (token, n) =>
        let later := progress rest (n - 1) (offset + c.utf8Size)
        (⟨token, offset, offset + byteLength ((c :: rest).take n)⟩ :: later.1, later.2)

/-- The lexemes that are found in a text before any place where it cannot be read. -/
def found (text : String) : List Lexeme := (progress text.toList 0 0).1

/-- The lexer gives all that it has found, unless it meets an error. -/
theorem lexemes_eq_progress (cs : List Char) (skip offset : Nat) :
    lexemes cs skip offset = (progress cs skip offset).2.elim (.ok (progress cs skip offset).1) .error := by
  fun_induction lexemes cs skip offset with
  | case1 skip offset => rfl
  | case2 c rest skip offset ih => exact ih
  | case3 c rest offset hc ih => rw [ih, progress, if_pos hc]
  | case4 c rest offset hc fault hscan => rw [progress, if_neg hc, hscan]; rfl
  | case5 c rest offset hc token n hscan ih =>
    rw [ih, progress, if_neg hc, hscan]
    cases (progress rest (n - 1) (offset + c.utf8Size)).2 <;> rfl

theorem lexemes_eq_error_iff : lexemes cs skip offset = .error err ↔ (progress cs skip offset).2 = some err := by
  rw [lexemes_eq_progress]
  cases (progress cs skip offset).2 <;> simp

/-- **Where the lexer stops.** An error stands at a character that is no blank, and the text before it is cut into what
has been found. -/
theorem exists_of_progress (h : (progress cs skip offset).2 = some err) :
    ∃ before c after fault, cs.drop skip = before ++ c :: after ∧ isBlank c = false ∧
      err = .malformed (offset + byteLength (cs.take skip) + byteLength before) (.lexical fault) ∧
      lexemes before 0 (offset + byteLength (cs.take skip)) = .ok (progress cs skip offset).1 := by
  fun_induction progress cs skip offset with
  | case1 skip offset => cases h
  | case2 c rest skip offset ih =>
    rw [List.take_succ_cons, byteLength, ← Nat.add_assoc]
    exact ih h
  | case3 c rest offset hc ih =>
    obtain ⟨before, d, after, fault, hrest, hd, herr, hbefore⟩ := ih h
    rw [List.take_zero, byteLength, Nat.add_zero] at herr hbefore ⊢
    refine ⟨c :: before, d, after, fault, congrArg (c :: ·) hrest, hd, ?_, ?_⟩
    · rw [herr, byteLength, Nat.add_assoc]
    · rw [lexemes, if_pos hc]
      exact hbefore
  | case4 c rest offset hc fault hscan =>
    cases h
    exact ⟨[], c, rest, fault, rfl, Bool.eq_false_iff.2 hc, rfl, rfl⟩
  | case5 c rest offset hc token n hscan later ih =>
    have hscans : Scans c rest token n := scan_eq_ok_iff.1 hscan
    obtain ⟨m, rfl⟩ := Nat.exists_eq_add_one_of_ne_zero (Nat.ne_of_gt hscans.bounds.1)
    obtain ⟨before, d, after, fault, hrest, hd, herr, hbefore⟩ := ih h
    rw [Nat.add_sub_cancel] at hrest herr hbefore
    have hm : m ≤ rest.length := Nat.le_of_succ_le_succ hscans.bounds.2
    have hlength : (rest.take m).length = m := List.length_take_of_le hm
    have htext : rest = rest.take m ++ (before ++ d :: after) := by
      rw [← hrest, List.take_append_drop]
    have hplace : offset + byteLength (c :: rest.take m) = offset + c.utf8Size + byteLength (rest.take m) := by
      rw [byteLength, Nat.add_assoc]
    -- The token that is found ends before the error, so it is read without what stands there as well.
    have hfound : Scans c (rest.take m ++ before) token ((rest.take m).length + 1) := by
      rw [hlength]
      rw [htext, ← List.append_assoc] at hscans
      exact hscans.of_append (by rw [List.length_append, hlength]; omega)
    rw [← hplace] at herr hbefore
    rw [List.take_zero, byteLength, Nat.add_zero]
    refine ⟨c :: (rest.take m ++ before), d, after, fault, ?_, hd, ?_, ?_⟩
    · rw [List.drop_zero, List.cons_append, List.append_assoc, ← htext]
    · rw [herr, ← List.cons_append, byteLength_append, ← Nat.add_assoc]
    · exact lexemes_of_scans hfound hbefore

/-- A text that the lexer refuses is read up to the character at which it does. -/
theorem exists_of_tokenize (h : tokenize text = .error err) :
    ∃ before after fault, text = before ++ after ∧ err = .malformed before.utf8ByteSize (.lexical fault) ∧
      tokenize before = .ok (found text) ∧ ∃ c rest, after.toList = c :: rest ∧ isBlank c = false := by
  obtain ⟨before, c, rest, fault, htext, hc, herr, hbefore⟩ := exists_of_progress (lexemes_eq_error_iff.1 h)
  rw [List.take_zero, byteLength, Nat.add_zero] at hbefore herr
  refine ⟨_, _, fault, eq_append_of_toList htext, ?_, ?_, c, rest, String.toList_ofList, hc⟩
  · rw [herr, Nat.zero_add, utf8ByteSize_eq_byteLength, String.toList_ofList]
  · rw [tokenize, String.toList_ofList]
    exact hbefore

/-- A token of a text starts after a first part of it. -/
theorem exists_of_mem_tokenize {ls : List Lexeme} {l : Lexeme} (h : tokenize text = .ok ls) (hl : l ∈ ls) :
    ∃ before after, text = before ++ after ∧ l.start = before.utf8ByteSize := by
  obtain ⟨before, word, after, htext, _, hstart, _⟩ := (cuts_of_lexemes h).exists_eq_append hl
  refine ⟨_, _, eq_append_of_toList htext, ?_⟩
  rw [hstart, List.take_zero, byteLength, Nat.zero_add, utf8ByteSize_eq_byteLength, String.toList_ofList]

end Token

/-! ## The reader -/

namespace Grammar

theorem Clause.namesField (c : Clause) : c.modifier.NamesField := by
  cases c with
  | filter first more operator operand => exact List.cons_ne_nil _ _
  | order field direction => trivial
  | count what n => cases what <;> trivial

mutual

/-- Every filter of a derived tree names a field. -/
theorem Level.namesFields : ∀ level : Level, level.tree.NamesFields
  | ⟨first, more, clauses⟩ => by
    rw [Level.tree]
    refine .intro (List.forall_mem_map.2 fun c _ => c.namesField) fun label level hmem => ?_
    rcases List.mem_cons.1 hmem with hfirst | hmore
    · exact namesFields_of_fieldTree hfirst.symm
    · exact namesFields_of_fieldTrees hmore

theorem namesFields_of_fieldTree : ∀ {field : FieldEntry Level} {label : String} {tree : SyntaxTree},
    fieldTree field = .relation label tree → tree.NamesFields
  | .relation _ level, _, _, h => by
    rw [fieldTree, FieldEntry.relation.injEq] at h
    rw [← h.2]
    exact level.namesFields
  | .name _, _, _, h | .excluded _, _, _, h | .wildcard, _, _, h => by
    rw [fieldTree] at h
    cases h

theorem namesFields_of_fieldTrees : ∀ {fields : List (FieldEntry Level)} {label : String} {tree : SyntaxTree},
    .relation label tree ∈ fieldTrees fields → tree.NamesFields
  | [], _, _, h => by
    rw [fieldTrees] at h
    cases h
  | field :: rest, _, _, h => by
    rw [fieldTrees] at h
    rcases List.mem_cons.1 h with hfield | hrest
    · exact namesFields_of_fieldTree hfield.symm
    · exact namesFields_of_fieldTrees hrest

end

end Grammar

/-- The reader stops at a token, or at the end of the text. -/
theorem SyntaxTree.exists_of_ofLexemes {size : Nat} {ls : List Lexeme} {err : Error}
    (h : ofLexemes size ls = .error err) :
    ∃ position fault, err = .malformed position fault ∧ (position = size ∨ ∃ l ∈ ls, l.start = position) := by
  obtain ⟨before, after, s, fault, rfl, _, _, rfl⟩ := refused_of_ofLexemes h
  refine ⟨_, _, rfl, ?_⟩
  cases after with
  | nil => exact .inl rfl
  | cons l after => exact .inr ⟨l, List.mem_append_right _ List.mem_cons_self, rfl⟩

/-- A text whose tokens the reader refuses is read up to one of them, or to its end. -/
theorem SyntaxTree.exists_of_ofText {text : String} {ls : List Lexeme} {err : Error}
    (htokens : Token.tokenize text = .ok ls) (h : ofText text = .error err) :
    ∃ before after fault, text = before ++ after ∧ err = .malformed before.utf8ByteSize fault ∧
      (before.utf8ByteSize = text.utf8ByteSize ∨ ∃ l ∈ ls, l.start = before.utf8ByteSize) := by
  rw [ofText, htokens] at h
  obtain ⟨position, fault, rfl, rfl | ⟨l, hl, rfl⟩⟩ := exists_of_ofLexemes h
  · exact ⟨text, "", fault, String.append_empty.symm, rfl, .inl rfl⟩
  · obtain ⟨before, after, htext, hstart⟩ := Token.exists_of_mem_tokenize htokens hl
    exact ⟨before, after, fault, htext, by rw [hstart], .inr ⟨l, hl, hstart⟩⟩

namespace ActionTree

variable {text : String} {err : Error}

/-- A text without an action tree has no syntax tree. -/
theorem syntaxTree_of_ofText (h : ofText text = .error err) : SyntaxTree.ofText text = .error err := by
  rcases Outcome.bind_eq_error.1 h with h | ⟨tree, htree, h⟩
  · exact h
  · obtain ⟨ls, _, hls⟩ := Outcome.bind_eq_ok.1 htree
    obtain ⟨root, _, _, rfl⟩ := SyntaxTree.ofLexemes_eq_ok.1 hls
    obtain ⟨t, ht⟩ := exists_ofLevel root.namesFields none
    rw [ofSyntax, ht] at h
    cases h

/-- **Faults stand at characters.** A text that is no query has a place up to which it is read, between two characters:
the mark stands under the character there, or behind the last one. If no token can be read there, then the text before
it has the tokens that were found, and the character there is no blank; and if a token there is not the right one, then
that token starts there, unless the text is at its end. -/
theorem ofText_fault_place (h : ofText text = .error err) :
    ∃ before after fault, text = before ++ after ∧ err = .malformed before.utf8ByteSize fault ∧
      before.utf8ByteSize ≤ text.utf8ByteSize ∧ String.Pos.Raw.IsValid text ⟨before.utf8ByteSize⟩ ∧
      CommandLine.charactersIn? text.toList before.utf8ByteSize = some before.length ∧
      CommandLine.markColumn text before.utf8ByteSize = before.length ∧
      (∀ e, Token.tokenize text = .error e → Token.tokenize before = .ok (Token.found text) ∧
        ∃ c rest, after.toList = c :: rest ∧ isBlank c = false) ∧
      ∀ ls, Token.tokenize text = .ok ls →
        before.utf8ByteSize = text.utf8ByteSize ∨ ∃ l ∈ ls, l.start = before.utf8ByteSize := by
  have htree : SyntaxTree.ofText text = .error err := syntaxTree_of_ofText h
  cases htokens : Token.tokenize text with
  | error e =>
    have he : e = err := by
      rw [SyntaxTree.ofText, htokens] at htree
      cases htree
      rfl
    rw [he] at htokens
    obtain ⟨before, after, fault, rfl, rfl, hbefore, hafter⟩ := Token.exists_of_tokenize htokens
    obtain ⟨hle, hvalid, hcount, hcolumn⟩ := CommandLine.mark_append before after
    refine ⟨before, after, _, rfl, rfl, hle, hvalid, hcount, hcolumn, fun _ _ => ⟨hbefore, hafter⟩, ?_⟩
    rintro ls ⟨⟩
  | ok ls =>
    obtain ⟨before, after, fault, rfl, rfl, hplace⟩ := SyntaxTree.exists_of_ofText htokens htree
    obtain ⟨hle, hvalid, hcount, hcolumn⟩ := CommandLine.mark_append before after
    refine ⟨before, after, fault, rfl, rfl, hle, hvalid, hcount, hcolumn, ?_, ?_⟩
    · rintro e ⟨⟩
    · rintro _ ⟨⟩
      exact hplace

/-- Behind a string with a character of two bytes, one text has a character that begins no token, one has a name where a
count should stand, and one is at its end before its bracket is closed. -/
theorem ofText_fault_place_accent :
    (ofText "q=(id).filter(a=\"é\" ~)" = .error (.malformed 21 (.lexical (.unexpectedCharacter '~'))) ∧
      ∃ before after, "q=(id).filter(a=\"é\" ~)" = before ++ after ∧ before.utf8ByteSize = 21 ∧ before.length = 20 ∧
        Token.tokenize before = .ok (Token.found "q=(id).filter(a=\"é\" ~)") ∧
        ∃ c rest, after.toList = c :: rest ∧ isBlank c = false) ∧
    (ofText "q=(id).filter(a=\"é\").limit(x)" =
        .error (.malformed 28 (.grammar (.expected (.count .limit)) (some (.ident "x")))) ∧
      ∃ before after ls, "q=(id).filter(a=\"é\").limit(x)" = before ++ after ∧ before.utf8ByteSize = 28 ∧
        before.length = 27 ∧ Token.tokenize "q=(id).filter(a=\"é\").limit(x)" = .ok ls ∧ ∃ l ∈ ls, l.start = 28) ∧
    (ofText "q=(id).filter(a=\"é\"" = .error (.malformed 20 (.grammar (.expected (.symbol .closeParen)) none)) ∧
      ∃ before after ls, "q=(id).filter(a=\"é\"" = before ++ after ∧ before.utf8ByteSize = 20 ∧ before.length = 19 ∧
        Token.tokenize "q=(id).filter(a=\"é\"" = .ok ls ∧ (∀ l ∈ ls, l.start ≠ 20) ∧
        before.utf8ByteSize = "q=(id).filter(a=\"é\"".utf8ByteSize) := by
  refine ⟨?character, ?token, ?ending⟩
  case character =>
    have herr : ofText "q=(id).filter(a=\"é\" ~)" = .error (.malformed 21 (.lexical (.unexpectedCharacter '~'))) :=
      Outcome.bind_eq_error.2 (.inl rfl)
    have hmark : CommandLine.markColumn "q=(id).filter(a=\"é\" ~)" 21 = 20 := by decide +kernel
    obtain ⟨before, after, fault, htext, hplace, _, _, _, hcolumn, hfound, _⟩ := ofText_fault_place herr
    rw [Error.malformed.injEq] at hplace
    rw [← hplace.1, hmark] at hcolumn
    exact ⟨herr, before, after, htext, hplace.1.symm, hcolumn.symm, hfound _ rfl⟩
  case token =>
    have herr : ofText "q=(id).filter(a=\"é\").limit(x)" =
        .error (.malformed 28 (.grammar (.expected (.count .limit)) (some (.ident "x")))) :=
      Outcome.bind_eq_error.2 (.inl rfl)
    have hmark : CommandLine.markColumn "q=(id).filter(a=\"é\").limit(x)" 28 = 27 := by decide +kernel
    have hsize : "q=(id).filter(a=\"é\").limit(x)".utf8ByteSize = 30 := by decide
    obtain ⟨before, after, fault, htext, hplace, _, _, _, hcolumn, _, htoken⟩ := ofText_fault_place herr
    rw [Error.malformed.injEq] at hplace
    rw [← hplace.1] at hcolumn htoken
    rw [hmark] at hcolumn
    have hstart := (htoken _ rfl).resolve_left (by rw [hsize]; decide)
    exact ⟨herr, before, after, _, htext, hplace.1.symm, hcolumn.symm, rfl, hstart⟩
  case ending =>
    have herr : ofText "q=(id).filter(a=\"é\"" =
        .error (.malformed 20 (.grammar (.expected (.symbol .closeParen)) none)) :=
      Outcome.bind_eq_error.2 (.inl rfl)
    have hmark : CommandLine.markColumn "q=(id).filter(a=\"é\"" 20 = 19 := by decide +kernel
    obtain ⟨ls, hls, hstarts⟩ : ∃ ls, Token.tokenize "q=(id).filter(a=\"é\"" = .ok ls ∧ ∀ l ∈ ls, l.start ≠ 20 :=
      ⟨_, rfl, by decide⟩
    obtain ⟨before, after, fault, htext, hplace, _, _, _, hcolumn, _, htoken⟩ := ofText_fault_place herr
    rw [Error.malformed.injEq] at hplace
    rw [← hplace.1, hmark] at hcolumn
    have hend := (htoken ls hls).resolve_right fun ⟨l, hl, hstart⟩ => hstarts l hl (hstart.trans hplace.1.symm)
    exact ⟨herr, before, after, ls, htext, hplace.1.symm, hcolumn.symm, hls, hstarts, hend⟩

end ActionTree

end TreeQuery
