import TreeQuery.Proofs.Tiling

/-!
# Tokens are read back from their spelling

Every token but a number with a fraction has a spelling, and any row of tokens that are spelled with single spaces
between them is read back as it was (`tokenize_spelling`). As a word is read in the same way wherever a blank follows
(`tokenize_write`), one token at a time is enough: `spells_spelling`.
-/

namespace TreeQuery.Token

open Text

variable {t : Token} {ts : List Token}

/-- Text as it stands between quotes: with a backslash before each quote and each backslash. -/
def escaped (cs : List Char) : List Char := cs.flatMap fun c => if c = '"' ∨ c = '\\' then ['\\', c] else [c]

/-- How a token is written: a number in decimal, a date as year, month and day, and text in quotes. -/
def spelling : Token → String
  | .ident name => name
  | .int n => String.ofList ((if n.toInt < 0 then ['-'] else []) ++ Nat.toDigits 10 n.toInt.natAbs)
  | .float x => x.text
  | .date d => d.text
  | .string s => String.ofList ('"' :: (escaped s.toList ++ ['"']))
  | .comparison c => c.symbol
  | .symbol s => s.char.toString

/-- The tokens that their spelling stands for: names that are made of the characters of names, dates whose year has
four digits and no sign, and all other tokens but numbers with a fraction. -/
def Writable : Token → Prop
  | .ident name => ∃ c cs, name.toList = c :: cs ∧ (c.isAlpha ∨ c = '_') ∧ ∀ d ∈ cs, d.isAlphanum ∨ d = '_'
  | .date d => 0 ≤ d.year ∧ d.year ≤ 9999
  | .float _ => False
  | .int _ | .string _ | .comparison _ | .symbol _ => True

/-! ## Names and numbers -/

theorem writable_ident_iff {name : String} : (Token.ident name).Writable ↔
    ∃ c cs, name.toList = c :: cs ∧ isNameStart c = true ∧ ∀ d ∈ cs, isNamePart d = true := by
  simp only [Writable, isNameStart, isNamePart, Bool.or_eq_true, beq_iff_eq]

theorem spells_ident {name : String} (h : (Token.ident name).Writable) : Spells (.ident name) name.toList := by
  obtain ⟨c, cs, hname, hstart, hpart⟩ := writable_ident_iff.1 h
  have hscans : Scans c cs _ _ := .name hstart
  rw [List.takeWhile_eq_self_iff.2 hpart, ← hname, String.ofList_toList] at hscans
  rw [hname]
  exact .intro hscans

theorem digits_of_forall {ds : List Char} (h : ∀ d ∈ ds, d.isDigit = true) :
    leadingDigits ds = ds ∧ afterDigits ds = [] :=
  ⟨List.takeWhile_eq_self_iff.2 h, List.dropWhile_eq_nil_iff.2 h⟩

theorem integer?_toInt (n : Int64) : integer? (decide (n.toInt < 0)) n.toInt.natAbs = some n := by
  have hlow := Number.neg_int64Bound_le_toInt n
  have hhigh := Number.toInt_lt_int64Bound n
  unfold integer?
  split
  · rename_i hneg
    rw [decide_eq_true_eq] at hneg
    have habs : -(n.toInt.natAbs : Int) = n.toInt := by omega
    rw [if_pos (by omega), habs, Int64.ofInt_toInt]
  · rename_i hneg
    rw [decide_eq_true_eq] at hneg
    have habs : (n.toInt.natAbs : Int) = n.toInt := by omega
    rw [if_pos (by omega), ← Int64.ofInt_eq_ofNat, habs, Int64.ofInt_toInt]

/-- The digits of an integer, after its sign. -/
theorem scanNumber_toDigits (n : Int64) (signs : Nat) :
    scanNumber (decide (n.toInt < 0)) signs (Nat.toDigits 10 n.toInt.natAbs) =
      .ok (.int n, signs + (Nat.toDigits 10 n.toInt.natAbs).length) := by
  have hdigits : ∀ d ∈ Nat.toDigits 10 n.toInt.natAbs, d.isDigit = true :=
    fun d hd => Nat.isDigit_of_mem_toDigits (by decide) (by decide) hd
  obtain ⟨hleading, hafter⟩ := digits_of_forall hdigits
  unfold scanNumber
  simp only [hleading, hafter, fractionDigits, Nat.ofDigitChars_ten_toDigits, integer?_toInt]

theorem spells_int (n : Int64) : Spells (.int n) (spelling (.int n)).toList := by
  have hnumber := scanNumber_toDigits n
  have hdigits : ∀ d ∈ Nat.toDigits 10 n.toInt.natAbs, d.isDigit = true :=
    fun d hd => Nat.isDigit_of_mem_toDigits (by decide) (by decide) hd
  have hpos : 0 < (Nat.toDigits 10 n.toInt.natAbs).length := Nat.length_toDigits_pos
  obtain ⟨hleading, hafter⟩ := digits_of_forall hdigits
  rw [spelling, String.toList_ofList]
  by_cases hneg : n.toInt < 0
  · rw [if_pos hneg, List.singleton_append]
    have hnegative := hnumber 1
    rw [decide_eq_true hneg, Nat.add_comm] at hnegative
    refine .intro (.negative ?_ hnegative)
    rw [hleading]
    exact List.length_pos_iff.1 hpos
  · rw [if_neg hneg, List.nil_append]
    have hpositive := hnumber 0
    rw [decide_eq_false hneg, Nat.zero_add] at hpositive
    cases hds : Nat.toDigits 10 n.toInt.natAbs with
    | nil =>
      rw [hds] at hpos
      cases hpos
    | cons c cs =>
      rw [hds] at hdigits hafter hpositive
      refine .intro (.digits (hdigits c List.mem_cons_self) ?_)
      rw [scanDigits, dateGroups?, hafter]
      exact hpositive

/-! ## Dates -/

/-- Digits before a hyphen end there. -/
theorem digits_append_hyphen {ds : List Char} (h : ∀ d ∈ ds, d.isDigit = true) (rest : List Char) :
    leadingDigits (ds ++ '-' :: rest) = ds ∧ afterDigits (ds ++ '-' :: rest) = '-' :: rest := by
  obtain ⟨hleading, hafter⟩ := digits_of_forall h
  have hsplit : leadingDigits (ds ++ '-' :: rest) = leadingDigits ds ∧
      afterDigits (ds ++ '-' :: rest) = afterDigits ds ++ '-' :: rest := takeWhile_append_eq (.inr rfl)
  rw [hleading, hafter] at hsplit
  exact hsplit

theorem ofDigits?_padded {d : Date} (h : (Token.date d).Writable) :
    Date.ofDigits? (Date.padded 4 d.year.natAbs) (Date.padded 2 d.month) (Date.padded 2 d.day) = some d := by
  have hlow : 0 ≤ d.year := h.1
  have hhigh : d.year ≤ 9999 := h.2
  have hmonth := d.month_le
  have hday : d.day ≤ 31 := Nat.le_trans d.day_le (Date.daysInMonth_le _ _)
  have hfits {width n : Nat} (hwidth : width ≠ 0) (hn : n < 10 ^ width) : (Date.padded width n).length ≤ width :=
    Nat.le_of_eq (Date.length_padded ((Nat.length_toDigits_le_iff (by decide) (Nat.pos_of_ne_zero hwidth)).2 hn))
  have habs : (d.year.natAbs : Int) = d.year := by omega
  rw [Date.ofDigits?, if_pos ⟨hfits (by decide) (by omega), hfits (by decide) (by omega), hfits (by decide) (by omega)⟩,
    Date.ofDigitChars_padded, Date.ofDigitChars_padded, Date.ofDigitChars_padded, habs, Date.ofParts?_self]

theorem dateGroups?_padded (year month day : Nat) :
    dateGroups? (Date.padded 4 year ++ '-' :: (Date.padded 2 month ++ '-' :: Date.padded 2 day)) =
      some (Date.padded 4 year, Date.padded 2 month, Date.padded 2 day) := by
  have hne (width n : Nat) : Date.padded width n ≠ [] := by
    obtain ⟨c, cs, hpadded, _⟩ := Date.exists_padded_eq_cons width n
    rw [hpadded]
    nofun
  obtain ⟨hyear, hafterYear⟩ := digits_append_hyphen (Date.isDigit_padded 4 year)
    (Date.padded 2 month ++ '-' :: Date.padded 2 day)
  obtain ⟨hmonth, hafterMonth⟩ := digits_append_hyphen (Date.isDigit_padded 2 month) (Date.padded 2 day)
  obtain ⟨hday, _⟩ := digits_of_forall (Date.isDigit_padded 2 day)
  exact dateGroups?_eq_some.2 ⟨_, _, hafterYear, hafterMonth, hyear, hmonth, hday, hne _ _, hne _ _, hne _ _⟩

theorem spells_date {d : Date} (h : (Token.date d).Writable) : Spells (.date d) d.text.toList := by
  have hsign : Date.yearSign d.year = [] := by
    rw [Date.yearSign, if_neg (Int.not_lt.2 h.1), if_neg (Int.not_lt.2 h.2)]
  have hscan : scanDigits d.chars = .ok (.date d, d.chars.length) := by
    rw [Date.chars_eq, hsign, List.nil_append, scanDigits, dateGroups?_padded]
    simp only [ofDigits?_padded h, List.length_append, List.length_cons]
    congr 2
    omega
  obtain ⟨c, cs, hpadded, hc⟩ := Date.exists_padded_eq_cons 4 d.year.natAbs
  rw [Date.text, String.toList_ofList]
  rw [Date.chars_eq, hsign, List.nil_append, hpadded, List.cons_append] at hscan ⊢
  exact .intro (.digits hc hscan)

/-! ## Text in quotes -/

theorem stringBody?_escaped (cs rest : List Char) :
    stringBody? (escaped cs ++ '"' :: rest) = some (cs, (escaped cs).length + 1) := by
  induction cs with
  | nil => rfl
  | cons c cs ih =>
    rw [escaped, List.flatMap_cons, ← escaped]
    split
    · rw [List.cons_append, List.singleton_append, List.cons_append, List.cons_append, stringBody?, ih]
      rfl
    · rename_i hplain
      rw [not_or] at hplain
      rw [List.singleton_append, List.cons_append, stringBody?, ih]
      · rfl
      · exact hplain.1
      · exact fun _ _ hc => absurd hc hplain.2

theorem spells_string (s : String) : Spells (.string s) (spelling (.string s)).toList := by
  have hbody := stringBody?_escaped s.toList []
  have hscans := Scans.string hbody
  rw [String.ofList_toList] at hscans
  rw [spelling, String.toList_ofList]
  refine .intro ?_
  rw [List.length_append]
  exact hscans

/-! ## Comparisons and symbols -/

theorem spells_comparison (c : Comparison) : Spells (.comparison c) c.symbol.toList := by
  cases c <;> exact .intro (scan_eq_ok_iff.1 rfl)

theorem spells_symbol (s : Symbol) : Spells (.symbol s) s.char.toString.toList := by
  cases s <;> exact .intro (scan_eq_ok_iff.1 rfl)

/-! ## Rows of tokens -/

theorem spells_spelling (h : t.Writable) : Spells t t.spelling.toList := by
  cases t with
  | ident name => exact spells_ident h
  | int n => exact spells_int n
  | float x => cases h
  | date d => exact spells_date h
  | string s => exact spells_string s
  | comparison c => exact spells_comparison c
  | symbol s => exact spells_symbol s

/-- **Tokens that are spelled with single spaces between them are read back.** -/
theorem tokenize_spelling (h : ∀ t ∈ ts, t.Writable) :
    ∃ ls, tokenize (" ".intercalate (ts.map spelling)) = .ok ls ∧ ls.map Lexeme.token = ts := by
  have hwords : List.Forall₂ (fun t word => Spells t word.toList) ts (ts.map spelling) := by
    rw [List.forall₂_map_right_iff, List.forall₂_same]
    exact fun t ht => spells_spelling (h t ht)
  rw [← Spacing.write_single]
  exact tokenize_write _ hwords (List.length_map _).symm

/-- A row with the least integer, a leap day, and text that holds a quote and ends in a backslash. -/
theorem tokenize_spelling_quotes :
    ∃ ls, tokenize "_id != -9223372036854775808 2024-02-29 \"5\\\" é\\\\\" ! [" = .ok ls ∧
      ls.map Lexeme.token = [.ident "_id", .comparison .notEqual, .int (-9223372036854775808),
        .date ⟨2024, 2, 29, by decide, by decide, by decide, by decide⟩, .string "5\" é\\", .symbol .bang,
        .symbol .openBracket] := by
  have htext : " ".intercalate (List.map spelling [.ident "_id", .comparison .notEqual, .int (-9223372036854775808),
      .date ⟨2024, 2, 29, by decide, by decide, by decide, by decide⟩, .string "5\" é\\", .symbol .bang,
      .symbol .openBracket]) = "_id != -9223372036854775808 2024-02-29 \"5\\\" é\\\\\" ! [" := by decide +kernel
  rw [← htext]
  refine tokenize_spelling ?_
  have hname : (Token.ident "_id").Writable :=
    ⟨'_', ['i', 'd'], rfl, .inr rfl, List.forall_mem_cons.2 ⟨.inl rfl, List.forall_mem_singleton.2 (.inl rfl)⟩⟩
  simp only [List.forall_mem_cons, Writable] at hname ⊢
  exact ⟨hname, trivial, trivial, by decide, trivial, trivial, trivial, List.forall_mem_nil _⟩

end TreeQuery.Token
