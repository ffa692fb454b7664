import Mathlib.Data.List.Forall2
import Mathlib.Data.String.Basic
import TreeQuery.Proofs.Scanning

/-!
# Tokens tile a text

The tokens of a text take its bytes one after the other, and leave out nothing but blanks (`Tiles`); and the blanks say
no more than where tokens end: the words that the tokens were read from are read as the same tokens however they are
spaced, if only there is a blank between two of them (`tokenize_tiles`).

- `Cuts` follows the lexer through the text: a blank, or a word that spells a token (`cuts_of_lexemes`). What is said
  of the spans is read off it by induction.
- A word that spells a token is read as it where the text ends, goes on with a blank, or with anything else that does
  not belong to the token; so a text that is made of such words (`Writes`) is read as their tokens
  (`Writes.exists_lexemes`), and a row of words with blanks between them is such a text (`tokenize_write`).
-/

namespace TreeQuery

/-- The part of a text that a token was read from. -/
def Lexeme.source (text : String) (l : Lexeme) : String := String.Pos.Raw.extract text ⟨l.start⟩ ⟨l.stop⟩

namespace Token

open Text

variable {text : String} {cs rest word : List Char} {t : Token} {ts : List Token} {l : Lexeme} {ls : List Lexeme}
  {offset : Nat}

/-! ## Words with blanks between them -/

/-- Ways to set blanks around `n` words: before the first and after each, with at least one between two of them. -/
structure Spacing (n : Nat) where
  before : String
  after : List String
  length_after : after.length = n
  blank : ∀ gap ∈ before :: after, ∀ c ∈ gap.toList, isBlank c = true
  apart : ∀ gap ∈ after.dropLast, gap ≠ ""

/-- Words in a row, with blanks around them. -/
def Spacing.write {n : Nat} (spacing : Spacing n) (words : List String) : String :=
  spacing.before ++ String.join (List.zipWith (· ++ ·) words spacing.after)

/-- A space between any two of `n` words, and nothing after the last. -/
def singleSpaces : Nat → List String
  | 0 => []
  | 1 => [""]
  | n + 2 => " " :: singleSpaces (n + 1)

theorem length_singleSpaces (n : Nat) : (singleSpaces n).length = n := by
  fun_induction singleSpaces n with
  | case1 => rfl
  | case2 => rfl
  | case3 n ih => rw [List.length_cons, ih]

theorem isBlank_of_mem_singleSpaces {n : Nat} : ∀ gap ∈ singleSpaces n, ∀ c ∈ gap.toList, isBlank c = true := by
  fun_induction singleSpaces n with
  | case1 => nofun
  | case2 => simp
  | case3 n ih =>
    refine List.forall_mem_cons.2 ⟨fun c hc => ?_, ih⟩
    rw [List.mem_singleton.1 hc]
    rfl

theorem ne_empty_of_mem_singleSpaces {n : Nat} : ∀ gap ∈ (singleSpaces n).dropLast, gap ≠ "" := by
  fun_induction singleSpaces n with
  | case1 => nofun
  | case2 => nofun
  | case3 n ih =>
    have hne : singleSpaces (n + 1) ≠ [] := by
      intro hnil
      have hlength := length_singleSpaces (n + 1)
      rw [hnil] at hlength
      cases hlength
    rw [List.dropLast_cons_of_ne_nil hne]
    exact List.forall_mem_cons.2 ⟨by decide, ih⟩

/-- Single spaces between words. -/
def Spacing.single (n : Nat) : Spacing n where
  before := ""
  after := singleSpaces n
  length_after := length_singleSpaces n
  blank := List.forall_mem_cons.2 ⟨nofun, isBlank_of_mem_singleSpaces⟩
  apart := ne_empty_of_mem_singleSpaces

theorem join_zipWith_singleSpaces (words : List String) :
    String.join (List.zipWith (· ++ ·) words (singleSpaces words.length)) = " ".intercalate words := by
  induction words with
  | nil => rfl
  | cons word words ih =>
    cases words with
    | nil => simp [singleSpaces]
    | cons next words =>
      rw [List.length_cons, List.length_cons, singleSpaces, List.zipWith_cons_cons, String.join_cons,
        String.intercalate_cons_cons, ← ih]
      rfl

theorem Spacing.write_single (words : List String) :
    (Spacing.single words.length).write words = " ".intercalate words :=
  String.empty_append.trans (join_zipWith_singleSpaces words)

theorem lexemes_skip (front rest : List Char) (offset : Nat) :
    lexemes (front ++ rest) front.length offset = lexemes rest 0 (offset + byteLength front) := by
  induction front generalizing offset with
  | nil => rfl
  | cons c front ih =>
    rw [List.cons_append, List.length_cons, lexemes, ih, byteLength, Nat.add_assoc]

theorem Spells.byteLength_pos (h : Spells t word) : 0 < byteLength word := by
  cases h with
  | @intro c rest h => exact Nat.add_pos_left c.utf8Size_pos _

/-- A token that is read at the start of a text is its first lexeme. -/
theorem lexemes_of_scans {c : Char} {front : List Char} (h : Scans c (front ++ rest) t (front.length + 1))
    (hlater : lexemes rest 0 (offset + byteLength (c :: front)) = .ok ls) :
    lexemes (c :: (front ++ rest)) 0 offset = .ok (⟨t, offset, offset + byteLength (c :: front)⟩ :: ls) := by
  have hblank : ¬isBlank c = true := by
    rw [h.isBlank_eq_false]
    nofun
  have hfront : lexemes (front ++ rest) front.length (offset + c.utf8Size) = .ok ls := by
    rw [lexemes_skip, Nat.add_assoc]
    exact hlater
  have htake : (c :: (front ++ rest)).take (front.length + 1) = c :: front := by
    rw [List.take_succ_cons, List.take_left]
  rw [lexemes, if_neg hblank, scan_eq_ok_iff.2 h]
  simp only [Nat.add_sub_cancel, hfront, htake]
  rfl

/-- Texts that are made of words, each of which spells its token, and of blanks: what follows a word does not belong to
its token. -/
inductive Writes : List Token → List Char → Prop
  | nil : Writes [] []
  | blank {ts : List Token} {c : Char} {rest : List Char} (hc : isBlank c = true) (h : Writes ts rest) :
      Writes ts (c :: rest)
  | word {t : Token} {ts : List Token} {word rest : List Char} (hword : Spells t word)
      (hends : Ends t.goesOnWith rest) (h : Writes ts rest) : Writes (t :: ts) (word ++ rest)

theorem Writes.blanks {gap : List Char} (hgap : ∀ c ∈ gap, isBlank c = true) (h : Writes ts rest) :
    Writes ts (gap ++ rest) := by
  induction gap with
  | nil => exact h
  | cons c gap ih =>
    obtain ⟨hc, hgap⟩ := List.forall_mem_cons.1 hgap
    exact .blank hc (ih hgap)

/-- A text is read as the tokens that it writes. -/
theorem Writes.exists_lexemes (h : Writes ts cs) (offset : Nat) :
    ∃ ls, lexemes cs 0 offset = .ok ls ∧ ls.map Lexeme.token = ts := by
  induction h generalizing offset with
  | nil => exact ⟨[], rfl, rfl⟩
  | @blank ts c rest hc h ih =>
    rw [lexemes, if_pos hc]
    exact ih _
  | @word t ts word rest hword hends h ih =>
    obtain ⟨ls, hls, rfl⟩ := ih (offset + byteLength word)
    cases hword with
    | intro hscans => exact ⟨_, lexemes_of_scans (hscans.append hends) hls, rfl⟩

theorem ends_append {gap : List Char} (hgap : ∀ c ∈ gap, isBlank c = true) (h : gap = [] → rest = []) (t : Token) :
    Ends t.goesOnWith (gap ++ rest) := by
  cases gap with
  | nil =>
    rw [h rfl]
    exact ends_nil _
  | cons c gap =>
    refine .of_blank (fun d hd => ?_) t
    cases hd
    exact hgap c List.mem_cons_self

/-- Words that spell tokens, each with blanks after it, write these tokens. -/
theorem writes_words {words after : List String} (hwords : List.Forall₂ (fun t word => Spells t word.toList) ts words)
    (hlength : after.length = ts.length) (hblank : ∀ gap ∈ after, ∀ c ∈ gap.toList, isBlank c = true)
    (hapart : ∀ gap ∈ after.dropLast, gap ≠ "") :
    Writes ts (String.join (List.zipWith (· ++ ·) words after)).toList := by
  induction hwords generalizing after with
  | nil => exact .nil
  | @cons t word ts words hword hwords ih =>
    obtain ⟨gap, after, rfl⟩ := List.exists_cons_of_length_eq_add_one hlength
    obtain ⟨hgap, hafter⟩ := List.forall_mem_cons.1 hblank
    -- Only the last gap may be empty, and then nothing follows it.
    have hlater : (gap.toList = [] → after = []) ∧ ∀ gap ∈ after.dropLast, gap ≠ "" := by
      cases after with
      | nil => exact ⟨fun _ => rfl, nofun⟩
      | cons gap' after =>
        rw [List.dropLast_cons_cons, List.forall_mem_cons] at hapart
        exact ⟨fun hempty => absurd (String.toList_eq_nil_iff.1 hempty) hapart.1, hapart.2⟩
    have hrest := ih (Nat.succ.inj hlength) hafter hlater.2
    rw [List.zipWith_cons_cons, String.join_cons, String.toList_append, String.toList_append, List.append_assoc]
    refine .word hword (ends_append hgap (fun hempty => ?_) t) (hrest.blanks hgap)
    rw [hlater.1 hempty, List.zipWith_nil_right]
    rfl

/-- Words that spell tokens are read as these, however they are spaced. -/
theorem tokenize_write {n : Nat} {words : List String} (spacing : Spacing n)
    (hwords : List.Forall₂ (fun t word => Spells t word.toList) ts words) (hlength : ts.length = n) :
    ∃ ls, tokenize (spacing.write words) = .ok ls ∧ ls.map Lexeme.token = ts := by
  have hbefore : ∀ c ∈ spacing.before.toList, isBlank c = true := spacing.blank _ List.mem_cons_self
  have hafter : ∀ gap ∈ spacing.after, ∀ c ∈ gap.toList, isBlank c = true :=
    fun gap hgap => spacing.blank gap (List.mem_cons_of_mem _ hgap)
  rw [tokenize, Spacing.write, String.toList_append]
  exact ((writes_words hwords (spacing.length_after.trans hlength.symm) hafter spacing.apart).blanks
    hbefore).exists_lexemes 0

/-! ## Where tokens stand -/

/-- A text from a byte on, cut into blanks and words that spell tokens. -/
inductive Cuts : Nat → List Char → List Lexeme → Prop
  | nil {offset : Nat} : Cuts offset [] []
  | blank {offset : Nat} {c : Char} {rest : List Char} {ls : List Lexeme} (hc : isBlank c = true)
      (h : Cuts (offset + c.utf8Size) rest ls) : Cuts offset (c :: rest) ls
  | word {offset : Nat} {t : Token} {word rest : List Char} {ls : List Lexeme} (hword : Spells t word)
      (h : Cuts (offset + byteLength word) rest ls) :
      Cuts offset (word ++ rest) (⟨t, offset, offset + byteLength word⟩ :: ls)

/-- The lexer cuts what is left of the text after the characters to skip. -/
theorem cuts_of_lexemes {skip : Nat} (h : lexemes cs skip offset = .ok ls) :
    Cuts (offset + byteLength (cs.take skip)) (cs.drop skip) ls := by
  fun_induction lexemes cs skip offset generalizing ls with
  | case1 skip offset =>
    cases h
    rw [List.drop_nil]
    exact .nil
  | case2 c rest skip offset ih =>
    rw [List.take_succ_cons, byteLength, ← Nat.add_assoc]
    exact ih h
  | case3 c rest offset hc ih =>
    exact .blank hc (ih h)
  | case4 c rest offset hc fault hscan => cases h
  | case5 c rest offset hc token n hscan ih =>
    have hscans : Scans c rest token n := scan_eq_ok_iff.1 hscan
    obtain ⟨m, rfl⟩ := Nat.exists_eq_add_one_of_ne_zero (Nat.ne_of_gt hscans.bounds.1)
    cases hlater : lexemes rest m (offset + c.utf8Size) with
    | error e =>
      rw [Nat.add_sub_cancel, hlater] at h
      cases h
    | ok later =>
      rw [Nat.add_sub_cancel, hlater] at h
      cases h
      have hcuts := ih hlater
      rw [Nat.add_assoc, Nat.add_sub_cancel, ← byteLength, ← List.take_succ_cons] at hcuts
      have hword := Cuts.word (spells_take hscans) hcuts
      rw [List.take_succ_cons, List.cons_append, List.take_append_drop, ← List.take_succ_cons] at hword
      exact hword

namespace Cuts

/-- Each lexeme has the word that spells it between what comes before and what comes after. -/
theorem exists_eq_append (h : Cuts offset cs ls) (hl : l ∈ ls) : ∃ before word after, cs = before ++ (word ++ after) ∧
    Spells l.token word ∧ l.start = offset + byteLength before ∧ l.stop = l.start + byteLength word := by
  induction h with
  | nil => cases hl
  | @blank offset c rest ls hc h ih =>
    obtain ⟨before, word, after, rfl, hword, hstart, hstop⟩ := ih hl
    rw [Nat.add_assoc] at hstart
    exact ⟨c :: before, word, after, rfl, hword, hstart, hstop⟩
  | @word offset t word rest ls hword h ih =>
    rcases List.mem_cons.1 hl with rfl | hl
    · exact ⟨[], word, rest, rfl, hword, rfl, rfl⟩
    · obtain ⟨before, word', after, rfl, hword', hstart, hstop⟩ := ih hl
      rw [Nat.add_assoc, ← byteLength_append] at hstart
      exact ⟨word ++ before, word', after, (List.append_assoc _ _ _).symm, hword', hstart, hstop⟩

theorem offset_le_start (h : Cuts offset cs ls) (hl : l ∈ ls) : offset ≤ l.start := by
  obtain ⟨before, _, _, _, _, hstart, _⟩ := h.exists_eq_append hl
  rw [hstart]
  exact Nat.le_add_right _ _

theorem ordered (h : Cuts offset cs ls) :
    ls.Pairwise fun l later => l.start < later.start ∧ l.stop ≤ later.start := by
  induction h with
  | nil => exact .nil
  | blank hc h ih => exact ih
  | @word offset t word rest ls hword h ih =>
    refine .cons (fun later hlater => ?_) ih
    have hstop : offset + byteLength word ≤ later.start := h.offset_le_start hlater
    have hpos : 0 < byteLength word := hword.byteLength_pos
    exact ⟨Nat.lt_of_lt_of_le (Nat.lt_add_of_pos_right hpos) hstop, hstop⟩

/-- A character is a blank or belongs to a word. -/
theorem blank_or_mem (h : Cuts offset cs ls) {before after : List Char} {c : Char} (hcs : cs = before ++ c :: after) :
    isBlank c = true ∨
      ∃ l ∈ ls, l.start ≤ offset + byteLength before ∧ offset + byteLength before + c.utf8Size ≤ l.stop := by
  induction h generalizing before with
  | nil => exact absurd hcs.symm (List.append_ne_nil_of_right_ne_nil _ nofun)
  | @blank offset d rest ls hd h ih =>
    cases before with
    | nil =>
      cases hcs
      exact .inl hd
    | cons d' before =>
      cases hcs
      rw [byteLength, ← Nat.add_assoc]
      exact ih rfl
  | @word offset t word rest ls hword h ih =>
    have hlater (before : List Char) (hrest : rest = before ++ c :: after) :
        isBlank c = true ∨ ∃ l ∈ (⟨t, offset, offset + byteLength word⟩ : Lexeme) :: ls,
          l.start ≤ offset + byteLength (word ++ before) ∧
            offset + byteLength (word ++ before) + c.utf8Size ≤ l.stop := by
      rw [byteLength_append, ← Nat.add_assoc]
      rcases ih hrest with hblank | ⟨l, hl, hspan⟩
      · exact .inl hblank
      · exact .inr ⟨l, List.mem_cons_of_mem _ hl, hspan⟩
    -- The character stands after the word, or in it; or right behind it, where the word is all that comes before.
    rcases List.append_eq_append_iff.1 hcs with ⟨before, rfl, hrest⟩ | ⟨last, rfl, hlast⟩
    · exact hlater before hrest
    · cases last with
      | nil =>
        have hhere := hlater [] hlast.symm
        simp only [List.append_nil] at hhere ⊢
        exact hhere
      | cons d last =>
        cases hlast
        refine .inr ⟨_, List.mem_cons_self, Nat.le_add_right _ _, ?_⟩
        show offset + byteLength before + c.utf8Size ≤ offset + byteLength (before ++ c :: last)
        rw [byteLength_append, byteLength]
        omega

end Cuts

/-- Spans of a text, from left to right: none is empty, each goes from character to character, no two share a byte, and
every character outside of them is a blank. -/
structure Tiles (text : String) (ls : List Lexeme) : Prop where
  nonempty : ∀ l ∈ ls, l.start < l.stop
  boundaries : ∀ l ∈ ls, String.Pos.Raw.IsValid text ⟨l.start⟩ ∧ String.Pos.Raw.IsValid text ⟨l.stop⟩
  ordered : ls.Pairwise fun l later => l.start < later.start ∧ l.stop ≤ later.start
  blank_outside : ∀ before c after, text.toList = before ++ c :: after →
    isBlank c = true ∨ ∃ l ∈ ls, l.start ≤ byteLength before ∧ byteLength before + c.utf8Size ≤ l.stop

theorem utf8Len_eq_byteLength (cs : List Char) : String.utf8Len cs = byteLength cs := by
  induction cs with
  | nil => rfl
  | cons c cs ih => rw [String.utf8Len_cons, ih, byteLength, Nat.add_comm]

theorem eq_append_of_toList {before after : List Char} (h : text.toList = before ++ after) :
    text = String.ofList before ++ String.ofList after := by
  rw [← String.ofList_append, ← h, String.ofList_toList]

/-- A place between two parts of a text lies on a boundary of characters. -/
theorem isValid_byteLength {before after : List Char} (h : text.toList = before ++ after) :
    String.Pos.Raw.IsValid text ⟨byteLength before⟩ := by
  refine String.Pos.Raw.isValid_iff_exists_append.2 ⟨_, _, eq_append_of_toList h, ?_⟩
  rw [String.rawEndPos_ofList, utf8Len_eq_byteLength]

theorem tiles_of_cuts (h : Cuts 0 text.toList ls) : Tiles text ls where
  nonempty l hl := by
    obtain ⟨_, _, _, _, hword, _, hstop⟩ := h.exists_eq_append hl
    rw [hstop]
    exact Nat.lt_add_of_pos_right hword.byteLength_pos
  boundaries l hl := by
    obtain ⟨before, word, after, htext, _, hstart, hstop⟩ := h.exists_eq_append hl
    rw [hstop, hstart, Nat.zero_add]
    refine ⟨isValid_byteLength htext, ?_⟩
    rw [← List.append_assoc] at htext
    rw [← byteLength_append]
    exact isValid_byteLength htext
  ordered := h.ordered
  blank_outside before c after htext := by
    have hspan := h.blank_or_mem htext
    rw [Nat.zero_add] at hspan
    exact hspan

/-! ## Writing a text anew -/

theorem spells_source (h : Cuts 0 text.toList ls) (hl : l ∈ ls) : Spells l.token (l.source text).toList := by
  obtain ⟨before, word, after, htext, hword, hstart, hstop⟩ := h.exists_eq_append hl
  have hsource : l.source text = String.ofList word := by
    have hextract := String.extract_of_valid before word after
    rw [List.append_assoc, ← htext, String.ofList_toList, utf8Len_eq_byteLength, utf8Len_eq_byteLength] at hextract
    rw [Lexeme.source, hstop, hstart, Nat.zero_add]
    exact hextract
  rw [hsource, String.toList_ofList]
  exact hword

/-- **Tokens tile their text, and the words they were read from are read as the same tokens however they are
spaced.** -/
theorem tokenize_tiles (h : tokenize text = .ok ls) :
    Tiles text ls ∧ ∀ spacing : Spacing ls.length, ∃ ls',
      tokenize (spacing.write (ls.map (Lexeme.source text))) = .ok ls' ∧
        ls'.map Lexeme.token = ls.map Lexeme.token := by
  have hcuts : Cuts 0 text.toList ls := cuts_of_lexemes h
  refine ⟨tiles_of_cuts hcuts, fun spacing => tokenize_write spacing ?_ (List.length_map _)⟩
  rw [List.forall₂_map_left_iff, List.forall₂_map_right_iff, List.forall₂_same]
  exact fun l hl => spells_source hcuts hl

/-- Tokens that touch, one of them with a character of two bytes, and the same words with spaces between. -/
theorem tokenize_tiles_accent :
    Tiles " a>=\"é\"5-2\n" [⟨.ident "a", 1, 2⟩, ⟨.comparison .greaterOrEqual, 2, 4⟩, ⟨.string "é", 4, 8⟩,
      ⟨.int 5, 8, 9⟩, ⟨.int (-2), 9, 11⟩] ∧
    ∃ ls, tokenize "a >= \"é\" 5 -2" = .ok ls ∧
      ls.map Lexeme.token = [.ident "a", .comparison .greaterOrEqual, .string "é", .int 5, .int (-2)] := by
  have htokens : tokenize " a>=\"é\"5-2\n" = .ok [⟨.ident "a", 1, 2⟩, ⟨.comparison .greaterOrEqual, 2, 4⟩,
      ⟨.string "é", 4, 8⟩, ⟨.int 5, 8, 9⟩, ⟨.int (-2), 9, 11⟩] := rfl
  obtain ⟨htiles, hspaced⟩ := tokenize_tiles htokens
  have hwritten := hspaced (.single 5)
  have hwrite : (Spacing.single 5).write (List.map (Lexeme.source " a>=\"é\"5-2\n") [⟨.ident "a", 1, 2⟩,
      ⟨.comparison .greaterOrEqual, 2, 4⟩, ⟨.string "é", 4, 8⟩, ⟨.int 5, 8, 9⟩, ⟨.int (-2), 9, 11⟩]) =
      "a >= \"é\" 5 -2" := by decide +kernel
  rw [← hwrite]
  exact ⟨htiles, hwritten⟩

end Token

end TreeQuery
