import TreeQuery.ActionTree.Build
import TreeQuery.Proofs.Parsing
import TreeQuery.Proofs.Spelling

/-!
# Filters are read back from their text

The text that messages show for a filter is query text: between the parentheses of a `filter` clause it is read as the
same filter (`ofText_filter`), as long as its names can be written, and its strings have no other characters than the
printable ones of ASCII.

- The text is made of the spellings of its tokens (`Writes`), piece by piece and each before anything that can follow
  it: paths (`writes_path`), operators (`writes_operator`) and operands (`exists_operand`).
- No blank stands around an operator that is a symbol, and none is missed: names do not go on with it, and no operand
  begins with an equals sign (`Writes.head?_ne`).
-/

namespace TreeQuery

open Text Grammar

/-! ## Tokens side by side -/

namespace Token

variable {c : Char} {rest word : List Char} {t : Token} {ts : List Token}

/-- A text with which no token goes on. -/
def Apart (rest : List Char) : Prop := ∀ t : Token, Ends t.goesOnWith rest

theorem apart_cons (hname : isNamePart c = false) (hnumber : isNumberPart c = false) (hequals : (c == '=') = false)
    (rest : List Char) : Apart (c :: rest) := by
  intro t
  refine ends_cons ?_ rest
  cases t with
  | ident _ => exact hname
  | int _ | float _ | date _ => exact hnumber
  | comparison _ | symbol _ => exact hequals
  | string _ => rfl

/-- Only a comparison starts with an equals sign. -/
theorem Scans.ne_equals {n : Nat} (h : Scans c rest t n) (ht : ∀ k, t ≠ .comparison k) : c ≠ '=' := by
  rintro rfl
  cases h with
  | digits hc => cases hc
  | name hc => cases hc
  | wide hc => cases hc
  | mark hc =>
    cases hc
    exact ht _ rfl

theorem Writes.head?_ne (h : Writes ts rest) (hts : ∀ k, ts.head? ≠ some (.comparison k)) : rest.head? ≠ some '=' := by
  cases h with
  | nil => nofun
  | blank hc =>
    rintro ⟨⟩
    cases hc
  | word hword =>
    cases hword with
    | intro hscans =>
      rintro ⟨⟩
      exact hscans.ne_equals (fun k ht => hts k (congrArg some ht)) rfl

theorem ends_equals (h : rest.head? ≠ some '=') : Ends (fun c => c == '=') rest := by
  intro c hc
  refine beq_eq_false_iff_ne.2 ?_
  rintro rfl
  exact h hc

/-- A symbol stands before all but a comparison. -/
theorem Writes.symbol (s : Symbol) (h : Writes ts rest) (hts : ∀ k, ts.head? ≠ some (.comparison k)) :
    Writes (.symbol s :: ts) (s.char :: rest) := by
  have hword := Writes.word (spells_symbol s) (ends_equals (h.head?_ne hts)) h
  rw [Char.toString_eq_singleton, String.toList_singleton, List.singleton_append] at hword
  exact hword

theorem Writes.comparison (k : Comparison) (h : Writes ts rest) (hts : ∀ k, ts.head? ≠ some (.comparison k)) :
    Writes (.comparison k :: ts) (k.symbol.toList ++ rest) :=
  .word (spells_comparison k) (ends_equals (h.head?_ne hts)) h

/-- Whether a name that is given can be written is computed. -/
theorem writable_of_all {name : String} {cs : List Char} (hname : name.toList = c :: cs) (hc : isNameStart c = true)
    (hcs : cs.all isNamePart = true) : (Token.ident name).Writable :=
  writable_ident_iff.2 ⟨c, cs, hname, hc, List.all_eq_true.1 hcs⟩

theorem Writes.ident {name : String} (hname : (Token.ident name).Writable) (hrest : Ends isNamePart rest)
    (h : Writes ts rest) : Writes (.ident name :: ts) (name.toList ++ rest) :=
  .word (spells_ident hname) hrest h

end Token

/-! ## Paths and operators -/

open Token

variable {rest : List Char} {ts : List Token}

theorem writes_path {first : String} {more : List String}
    (hnames : ∀ segment ∈ first :: more, (Token.ident segment).Writable) (hrest : Ends isNamePart rest)
    (h : Writes ts rest) :
    Writes (.ident first :: (pathTokens more ++ ts)) ((".".intercalate (first :: more)).toList ++ rest) := by
  induction more generalizing first with
  | nil => exact h.ident (hnames first List.mem_cons_self) hrest
  | cons next more ih =>
    obtain ⟨hfirst, hmore⟩ := List.forall_mem_cons.1 hnames
    have hlater := (ih hmore).symbol .dot nofun
    rw [String.intercalate_cons_cons, String.toList_append, String.toList_append, List.append_assoc, List.append_assoc]
    exact hlater.ident hfirst (ends_cons rfl _)

/-- An operator as it stands in a filter: a word has spaces around it. -/
def operatorText (op : Operator) : String := if op.isWord then " " ++ op.spelling ++ " " else op.spelling

theorem Filter.text_eq (f : Filter) : f.text = f.path.text ++ (operatorText f.operator ++ f.value.text) := by
  unfold Filter.text operatorText
  split <;> simp only [String.append_assoc]

/-- An operator that is a word is read as its name. -/
theorem operatorToken_of_isWord {op : Operator} (h : op.isWord = true) :
    operatorToken op = .ident op.spelling ∧ (Token.ident op.spelling).Writable := by
  cases op with
  | compare k => cases h
  | oneOf | isNull | like | ilike => exact ⟨rfl, writable_of_all rfl rfl rfl⟩

/-- An operator stands behind a name, and before all but a comparison. -/
theorem writes_operator (op : Operator) (h : Writes ts rest) (hts : ∀ k, ts.head? ≠ some (.comparison k)) :
    Writes (operatorToken op :: ts) ((operatorText op).toList ++ rest) ∧
      Ends isNamePart ((operatorText op).toList ++ rest) := by
  by_cases hword : op.isWord = true
  · obtain ⟨htoken, hname⟩ := operatorToken_of_isWord hword
    have htext : (operatorText op).toList ++ rest = ' ' :: (op.spelling.toList ++ ' ' :: rest) := by
      rw [operatorText, if_pos hword, String.toList_append, String.toList_append]
      simp
    rw [htoken, htext]
    exact ⟨.blank rfl ((Writes.blank rfl h).ident hname (ends_cons rfl _)), ends_cons rfl _⟩
  · cases op with
    | compare k =>
      refine ⟨h.comparison k hts, ?_⟩
      cases k <;> exact ends_cons rfl _
    | _ => exact absurd rfl hword

/-! ## Values -/

/-- A scalar whose text is query text: all but numbers with a fraction, with no characters in strings and no years
that messages write in a way of their own. -/
def Value.Plain : Value → Prop
  | .int _ => True
  | .date d => 0 ≤ d.year ∧ d.year ≤ 9999
  | .string s => ∀ c ∈ s.toList, 0x20 ≤ c.toNat ∧ c.toNat ≤ 0x7e
  | .float _ | .list _ => False

/-- A value whose text is query text: a scalar, or one or more of them in a list. -/
def Value.Readable : Value → Prop
  | .list items => items ≠ [] ∧ ∀ item ∈ items, item.Plain
  | v => v.Plain

/-- An integer in decimal is spelled as a token. -/
theorem toList_toString_int (n : Int64) : (toString n.toInt).toList = (Token.int n).spelling.toList := by
  rw [spelling, String.toList_ofList, Int.toString_eq_repr, Int.repr_eq_if]
  by_cases hneg : n.toInt < 0
  · have habs : (-n.toInt).toNat = n.toInt.natAbs := by omega
    rw [if_neg (by omega), if_pos hneg, String.toList_append, Nat.toList_repr, habs]
    rfl
  · have habs : n.toInt.toNat = n.toInt.natAbs := by omega
    rw [if_pos (by omega), if_neg hneg, Nat.toList_repr, habs]
    rfl

theorem quotedChar_of_printable {c : Char} (hlow : 0x20 ≤ c.toNat) (hhigh : c.toNat ≤ 0x7e) :
    quotedChar c = if c = '"' ∨ c = '\\' then ['\\', c] else [c] := by
  have hprintable : isPrintable c = true := by
    rw [isPrintable_ascii (by omega)]
    simp only [Bool.and_eq_true, decide_eq_true_eq]
    omega
  have hcontrol {d : Char} (hd : d.toNat < 0x20) : c ≠ d := by
    rintro rfl
    omega
  unfold quotedChar
  rw [if_neg (hcontrol (d := '\n') (by decide)), if_neg (hcontrol (d := '\r') (by decide)),
    if_neg (hcontrol (d := '\t') (by decide)), if_neg (hcontrol (d := '\x00') (by decide)), if_pos hprintable]
  by_cases hquote : c = '"'
  · rw [if_pos hquote, if_pos (.inl hquote), hquote]
  · by_cases hslash : c = '\\'
    · rw [if_neg hquote, if_pos hslash, if_pos (.inr hslash), hslash]
    · rw [if_neg hquote, if_neg hslash, if_neg (not_or.2 ⟨hquote, hslash⟩)]

/-- Messages and query text write a plain value in the same way. -/
theorem exists_literal_of_plain {v : Value} (h : v.Plain) : ∃ l : Literal, l.value = v ∧ Spells l.token v.chars := by
  cases v with
  | int n =>
    refine ⟨.int n, rfl, ?_⟩
    rw [Value.chars, toList_toString_int]
    exact spells_int n
  | date d =>
    have hspells := @spells_date d h
    rw [Date.text, String.toList_ofList] at hspells
    exact ⟨.date d, rfl, hspells⟩
  | string s =>
    have hchars : s.toList.flatMap quotedChar = escaped s.toList :=
      List.flatMap_congr fun c hc => quotedChar_of_printable (h c hc).1 (h c hc).2
    refine ⟨.string s, rfl, ?_⟩
    have hspells := spells_string s
    rw [spelling, String.toList_ofList, ← hchars] at hspells
    exact hspells
  | float _ | list _ => cases h

theorem Grammar.Literal.token_ne_comparison (l : Literal) (k : Comparison) : l.token ≠ .comparison k := by
  cases l <;> nofun

/-- Plain values with commas between them are spelled as literals. -/
theorem exists_literals {first : Value} {more : List Value} (h : ∀ v ∈ first :: more, v.Plain) :
    ∃ (l : Literal) (ls : List Literal), l.value = first ∧ ls.map Literal.value = more ∧
      ∀ {ts rest}, Writes ts rest → Apart rest →
        Writes (l.token :: (literalTokens ls ++ ts)) (Value.itemChars (first :: more) ++ rest) := by
  induction more generalizing first with
  | nil =>
    obtain ⟨l, hl, hspells⟩ := exists_literal_of_plain (h first List.mem_cons_self)
    exact ⟨l, [], hl, rfl, fun hwrites hrest => .word hspells (hrest _) hwrites⟩
  | cons next more ih =>
    obtain ⟨hfirst, hmore⟩ := List.forall_mem_cons.1 h
    obtain ⟨l, hl, hspells⟩ := exists_literal_of_plain hfirst
    obtain ⟨k, ks, hk, hks, hlater⟩ := ih hmore
    refine ⟨l, k :: ks, hl, by rw [List.map_cons, hk, hks], fun hwrites hrest => ?_⟩
    rw [Value.itemChars, List.append_assoc]
    have hcomma := (Writes.blank (c := ' ') rfl (hlater hwrites hrest)).symbol .comma
      fun c hc => k.token_ne_comparison c (Option.some.inj hc)
    exact .word hspells (apart_cons rfl rfl rfl _ _) hcomma

theorem Value.Readable.plain_or_list {v : Value} (h : v.Readable) :
    v.Plain ∨ ∃ first more, v = .list (first :: more) ∧ ∀ item ∈ first :: more, item.Plain := by
  cases v with
  | list items =>
    obtain ⟨first, more, rfl⟩ := List.exists_cons_of_ne_nil h.1
    exact .inr ⟨first, more, rfl, h.2⟩
  | _ => exact .inl h

/-- A readable value is spelled as an operand. -/
theorem exists_operand {v : Value} (h : v.Readable) : ∃ operand : Operand, operand.value = v ∧
    ∀ {ts rest}, Writes ts rest → Apart rest → Writes (operand.tokens ++ ts) (v.chars ++ rest) := by
  rcases h.plain_or_list with hplain | ⟨first, more, rfl, hitems⟩
  · obtain ⟨l, hl, hspells⟩ := exists_literal_of_plain hplain
    exact ⟨.scalar l, hl, fun hwrites hrest => .word hspells (hrest _) hwrites⟩
  · obtain ⟨l, ls, rfl, rfl, hlater⟩ := exists_literals hitems
    refine ⟨.list l ls, rfl, fun {ts rest} hwrites hrest => ?_⟩
    have hclose : Writes (.symbol .closeBracket :: ts) (']' :: rest) :=
      .word (spells_symbol .closeBracket) (hrest _) hwrites
    have hlist := (hlater hclose (apart_cons rfl rfl rfl _)).symbol .openBracket
      fun k hk => l.token_ne_comparison k (Option.some.inj hk)
    simp only [Operand.tokens, Value.chars, List.cons_append, List.append_assoc, List.nil_append]
    exact hlist

theorem operand_head?_ne (operand : Operand) (ts : List Token) (k : Comparison) :
    (operand.tokens ++ ts).head? ≠ some (.comparison k) := by
  cases operand with
  | scalar l => exact fun hk => l.token_ne_comparison k (Option.some.inj hk)
  | list l ls => nofun

/-! ## Filters -/

/-- The query that asks for the field `x` under a filter. -/
def filterQuery (f : Filter) : String := "q=(x).filter(" ++ f.text ++ ")"

/-- The derivation of such a query. -/
def filterLevel (first : String) (more : List String) (op : Operator) (operand : Operand) : Level :=
  ⟨.name "x", [], [.filter first more op operand]⟩

/-- A filter with names that can be written, and with a readable value, is spelled as a clause. -/
theorem exists_writes {f : Filter} (hnames : ∀ segment ∈ f.path.segments, (Token.ident segment).Writable)
    (hvalue : f.value.Readable) : ∃ first more operand, f.path.segments = first :: more ∧ operand.value = f.value ∧
      Writes (queryTokens (filterLevel first more f.operator operand)) (filterQuery f).toList := by
  obtain ⟨first, more, hsegments⟩ : ∃ first more, f.path.segments = first :: more :=
    List.exists_cons_of_ne_nil (List.append_ne_nil_of_right_ne_nil _ (List.cons_ne_nil _ _))
  obtain ⟨operand, hoperand, hwrites⟩ := exists_operand hvalue
  refine ⟨first, more, operand, hsegments, hoperand, ?_⟩
  have hclose : Writes [.symbol .closeParen] [')'] := Writes.nil.symbol .closeParen nofun
  obtain ⟨hoperator, hends⟩ := writes_operator f.operator (hwrites hclose (apart_cons rfl rfl rfl _))
    (operand_head?_ne operand _)
  have hpath := writes_path (hsegments ▸ hnames) hends hoperator
  have hnamed : (Token.ident "filter").Writable ∧ (Token.ident "x").Writable ∧ (Token.ident "q").Writable :=
    ⟨writable_of_all rfl rfl rfl, writable_of_all rfl rfl rfl, writable_of_all rfl rfl rfl⟩
  have hclause := (hpath.symbol .openParen nofun).ident hnamed.1 (ends_cons rfl _)
  have hafter := (hclause.symbol .dot nofun).symbol .closeParen nofun
  have hlevel := (hafter.ident hnamed.2.1 (ends_cons rfl _)).symbol .openParen nofun
  have hquery := (hlevel.comparison .equal nofun).ident hnamed.2.2 (ends_cons rfl _)
  have htext : (filterQuery f).toList = "q".toList ++ (Comparison.equal.symbol.toList ++ '(' ::
      ("x".toList ++ ')' :: '.' :: ("filter".toList ++ '(' :: ((".".intercalate (first :: more)).toList ++
        ((operatorText f.operator).toList ++ (f.value.chars ++ [')'])))))) := by
    rw [filterQuery, Filter.text_eq, FieldPath.text, hsegments, Value.text]
    simp [Comparison.symbol]
  have htokens : queryTokens (filterLevel first more f.operator operand) =
      .ident "q" :: .comparison .equal :: .symbol .openParen :: .ident "x" :: .symbol .closeParen :: .symbol .dot ::
        .ident "filter" :: .symbol .openParen :: .ident first :: (pathTokens more ++
          operatorToken f.operator :: (operand.tokens ++ [.symbol .closeParen])) := by
    simp [queryTokens, filterLevel, Level.tokens, fieldTokens, moreTokens, clauseTokens, Clause.tokens]
  rw [htext, htokens]
  exact hquery

/-- **Filters are read back.** If the names in the path of a filter can be written, and there are no more of them than
query text may have, and the value is a whole number, a date of four digits for the year, a string of printable
characters of ASCII, or a list of one or more of these, then the text of the filter is read as this filter. -/
theorem ActionTree.ofText_filter {f : Filter} (hnames : ∀ segment ∈ f.path.segments, (Token.ident segment).Writable)
    (hlength : f.path.segments.length ≤ 65) (hvalue : f.value.Readable) :
    ofText ("q=(x).filter(" ++ f.text ++ ")") =
      .ok { empty with select := .fields [.field "x"], filters := [f] } := by
  obtain ⟨first, more, operand, hsegments, hoperand, hwrites⟩ := exists_writes hnames hvalue
  obtain ⟨ls, hls, htokens⟩ := hwrites.exists_lexemes 0
  have hfits : (filterLevel first more f.operator operand).Fits 0 := by
    rw [hsegments, List.length_cons] at hlength
    have hmore : more.length ≤ maxDepth := Nat.le_of_succ_le_succ hlength
    exact ⟨trivial, trivial, List.forall_mem_singleton.2 hmore⟩
  have hlevel : (filterLevel first more f.operator operand).tree =
      ⟨[.name "x"], [.filter f.path.segments f.operator f.value]⟩ := by
    rw [hsegments, ← hoperand]
    rfl
  have htree : SyntaxTree.ofText (filterQuery f) = .ok ⟨[.name "x"], [.filter f.path.segments f.operator f.value]⟩ := by
    rw [SyntaxTree.ofText, tokenize, hls, ← hlevel]
    exact SyntaxTree.ofLexemes_eq_ok.2 ⟨_, hfits, htokens.symm, rfl⟩
  show (SyntaxTree.ofText (filterQuery f) >>= ofSyntax) = _
  rw [htree, Outcome.ok_bind, ofSyntax, ofLevel, addFields, addFields, Outcome.ok_bind, modifyAll, modify,
    FieldPath.ofSegments?_segments]
  rfl

/-- A list of a string with a quote in it, the least integer and a leap day, behind a path and a word. -/
theorem ActionTree.ofText_filter_list :
    ofText "q=(x).filter(task.level_2 in [\"5\\\" wide\", -9223372036854775808, 2024-02-29])" =
      .ok ⟨none, .fields [.field "x"], [⟨⟨["task"], "level_2"⟩, .oneOf, .list [.string "5\" wide",
        .int (-9223372036854775808), .date ⟨2024, 2, 29, by decide, by decide, by decide, by decide⟩]⟩],
        none, none, none, []⟩ := by
  have htext : "q=(x).filter(task.level_2 in [\"5\\\" wide\", -9223372036854775808, 2024-02-29])" =
      "q=(x).filter(" ++ Filter.text ⟨⟨["task"], "level_2"⟩, .oneOf, .list [.string "5\" wide",
        .int (-9223372036854775808), .date ⟨2024, 2, 29, by decide, by decide, by decide, by decide⟩]⟩ ++ ")" := by
    decide +kernel
  rw [htext]
  refine ofText_filter ?_ ?_ ?_
  · refine List.forall_mem_cons.2 ⟨writable_of_all rfl rfl rfl, ?_⟩
    exact List.forall_mem_singleton.2 (writable_of_all rfl rfl rfl)
  · decide
  · refine ⟨List.cons_ne_nil _ _, ?_⟩
    simp only [List.forall_mem_cons, Value.Plain]
    exact ⟨by simp, trivial, by decide, List.forall_mem_nil _⟩

end TreeQuery
