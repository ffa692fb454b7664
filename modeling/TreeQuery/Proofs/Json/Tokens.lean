import Std.Data.String.ToNat
import TreeQuery.Json.Reader

/-!
# Tokens of a JSON text

What is written as a token is read as that token, whatever follows it (`Scans`): a string by its code points
(`scans_string`), a number by its literal if what follows does not go on with it (`scans_number`), and words and marks.

- an escaped character of a string is read back as its code point (`stringUnits?_stringChar`), and code points that are
  characters are no halves of a surrogate pair (`pairSurrogates_of_isText`);
- the digits of a number end where they were written to end (`wholeDigits_append`, `scanFraction?_append`,
  `scanExponent?_append`).
-/

namespace TreeQuery.Json

open Number

/-- A token stands at the start of a text, and then the rest of the text. -/
def Scans (cs : List Char) (token : Token) (rest : List Char) : Prop :=
  tokens? cs 0 = (tokens? rest 0).map (token :: ·)

theorem tokens?_skip (cs rest : List Char) : tokens? (cs ++ rest) cs.length = tokens? rest 0 := by
  induction cs with
  | nil => rfl
  | cons c cs ih => rw [List.cons_append, List.length_cons, tokens?, ih]

/-- A token is scanned from its first character and the characters after it. -/
theorem scans_of_scan? {c : Char} {cs rest : List Char} {token : Token} (hspace : isSpace c = false)
    (h : scan? c (cs ++ rest) = some (token, cs.length + 1)) : Scans (c :: (cs ++ rest)) token rest := by
  unfold Scans
  rw [tokens?, hspace, h]
  have hskip : tokens? (cs ++ rest) (cs.length + 1 - 1) = tokens? rest 0 := tokens?_skip cs rest
  simp only [Bool.false_eq_true, if_false, Option.bind_eq_bind, Option.bind_some, hskip]
  cases tokens? rest 0 <;> rfl

theorem scans_mark {c : Char} {rest : List Char} {token : Token} (hspace : isSpace c = false)
    (h : scan? c rest = some (token, 1)) : Scans (c :: rest) token rest := by
  have hscan : scan? c ([] ++ rest) = some (token, ([] : List Char).length + 1) := h
  exact scans_of_scan? hspace hscan

/-- A word stands for its document. -/
theorem scans_word (word : String) {c : Char} {cs rest : List Char} {j : Json} (hspace : isSpace c = false)
    (hword : word.toList = c :: cs)
    (h : scan? c (cs ++ rest) = scanWord? word j (c :: (cs ++ rest))) : Scans (c :: (cs ++ rest)) (.scalar j) rest := by
  apply scans_of_scan? hspace
  have hprefix : word.toList.isPrefixOf (c :: (cs ++ rest)) = true := by
    rw [hword, List.isPrefixOf_iff_prefix]
    exact ⟨rest, rfl⟩
  have hlength : word.length = cs.length + 1 := by
    rw [← String.length_toList, hword, List.length_cons]
  rw [h, scanWord?, if_pos hprefix, hlength]

/-! ## Strings -/

/-- Code points of characters. -/
def IsText (t : Text) : Prop := ∀ n ∈ t, n.isValidChar

theorem isText_codePoints (s : String) : IsText (codePoints s) := by
  intro n hn
  obtain ⟨c, _, rfl⟩ := List.mem_map.1 hn
  exact c.valid

/-- A control character is written by the two digits of its code point. -/
theorem hexByte_eq : ∀ n < 0x20, hexByte n = [Nat.digitChar (n / 16), Nat.digitChar (n % 16)] := by decide

theorem fourHex?_digitChar : ∀ n < 0x20,
    fourHex? '0' '0' (Nat.digitChar (n / 16)) (Nat.digitChar (n % 16)) = some n := by decide

/-- A character that needs no escape stands for itself. -/
theorem stringUnits?_plain {c : Char} (hquote : c ≠ '"') (hslash : c ≠ '\\') (hprints : ¬c.toNat < 0x20)
    (rest : List Char) :
    stringUnits? (c :: rest) = (stringUnits? rest).map fun (units, k) => (c.toNat :: units, k + 1) := by
  have hplain : ¬(c.toNat < 0x20 ∨ c = '\\') := fun h => h.elim hprints hslash
  rw [stringUnits?.eq_def]
  split
  · rename_i h; cases h
  · rename_i h; cases h; exact absurd rfl hquote
  · rename_i h; cases h; exact absurd rfl hslash
  · rename_i h; cases h; exact absurd rfl hslash
  · rename_i h
    cases h
    rw [if_neg hplain]
    cases stringUnits? rest <;> rfl

/-- An escaped character is read back as its code point. -/
theorem stringUnits?_stringChar {n : Nat} (hn : n.isValidChar) (rest : List Char) :
    stringUnits? (stringChar n ++ rest) =
      (stringUnits? rest).map fun (units, k) => (n :: units, k + (stringChar n).length) := by
  -- the units after the character are the same on both sides
  have hsimple {c : Char} {unit : Nat} (hc : simpleEscape? c = some unit) (hu : c ≠ 'u') :
      stringUnits? ('\\' :: c :: rest) = (stringUnits? rest).map fun (units, k) => (unit :: units, k + 2) := by
    rw [stringUnits?.eq_def]
    split
    · rename_i h; cases h
    · rename_i h; cases h
    · rename_i h; cases h; exact absurd rfl hu
    · rename_i h
      cases h
      rw [hc]
      cases stringUnits? rest <;> rfl
    · rename_i hnone h
      cases h
      exact (hnone _ _ rfl rfl).elim
  unfold stringChar
  split
  · subst n; exact hsimple rfl (by decide)
  split
  · subst n; exact hsimple rfl (by decide)
  split
  · subst n; exact hsimple rfl (by decide)
  split
  · subst n; exact hsimple rfl (by decide)
  split
  · subst n; exact hsimple rfl (by decide)
  split
  · subst n; exact hsimple rfl (by decide)
  split
  · subst n; exact hsimple rfl (by decide)
  split
  · rename_i hcontrol
    rw [hexByte_eq n hcontrol]
    simp only [List.cons_append, List.nil_append, stringUnits?, fourHex?_digitChar n hcontrol]
    cases stringUnits? rest <;> rfl
  · rename_i hquote hslash _ _ _ _ _ hprints
    have hcode : (Char.ofNat n).toNat = n := by
      rw [Char.ofNat, dif_pos hn]
      rfl
    have hq : Char.ofNat n ≠ '"' := fun h => hquote (by rw [← hcode, h]; rfl)
    have hs : Char.ofNat n ≠ '\\' := fun h => hslash (by rw [← hcode, h]; rfl)
    have hplain := stringUnits?_plain hq hs (by rw [hcode]; exact hprints) rest
    rw [hcode] at hplain
    exact hplain

/-- The units of a written string are its code points, up to its closing quote. -/
theorem stringUnits?_flatMap {t : Text} (ht : IsText t) (rest : List Char) :
    stringUnits? (t.flatMap stringChar ++ '"' :: rest) = some (t, (t.flatMap stringChar).length + 1) := by
  induction t with
  | nil => rfl
  | cons n t ih =>
    have hn : n.isValidChar := ht n List.mem_cons_self
    have htail : IsText t := fun m hm => ht m (List.mem_cons_of_mem _ hm)
    rw [List.flatMap_cons, List.append_assoc, stringUnits?_stringChar hn, ih htail, Option.map_some,
      List.length_append]
    simp only [Option.some.injEq, Prod.mk.injEq, true_and]
    omega

/-- The code point of a character is no half of a surrogate pair. -/
theorem pairSurrogates_of_isText {t : Text} (ht : IsText t) : pairSurrogates t = t := by
  induction t with
  | nil => rfl
  | cons high t ih =>
    have hhigh : high.isValidChar := ht high List.mem_cons_self
    have htail : pairSurrogates t = t := ih fun n hn => ht n (List.mem_cons_of_mem _ hn)
    cases t with
    | nil => rfl
    | cons low t =>
      have hnone : ¬(0xd800 ≤ high ∧ high < 0xdc00 ∧ 0xdc00 ≤ low ∧ low < 0xe000) := by
        intro h
        unfold Nat.isValidChar at hhigh
        omega
      rw [pairSurrogates, if_neg hnone, htail]

theorem scans_string {t : Text} (ht : IsText t) (rest : List Char) :
    Scans (stringChars t ++ rest) (.scalar (.string t)) rest := by
  have htext : stringChars t ++ rest = '"' :: (t.flatMap stringChar ++ ['"'] ++ rest) := rfl
  rw [htext]
  apply scans_of_scan? rfl
  have hunits : stringUnits? (t.flatMap stringChar ++ ['"'] ++ rest) = some (t, (t.flatMap stringChar).length + 1) := by
    rw [List.append_assoc]
    exact stringUnits?_flatMap ht rest
  rw [scan?, hunits]
  simp only [Option.map_some, pairSurrogates_of_isText ht, List.length_append, List.length_cons, List.length_nil]

/-! ## Numbers -/

/-- A literal as JSON allows it: no further digit after a leading zero, and an exponent has digits. -/
structure IsNumber (l : Literal) : Prop where
  whole_ne_nil : l.whole ≠ []
  isDigit_whole : ∀ c ∈ l.whole, c.isDigit = true
  whole_of_zero : ∀ more, l.whole = '0' :: more → more = []
  isDigit_fraction : ∀ c ∈ l.fraction, c.isDigit = true
  exponent_ne_nil : ∀ negative digits, l.exponent = some (negative, digits) → digits ≠ []
  isDigit_exponent : ∀ negative digits, l.exponent = some (negative, digits) → ∀ c ∈ digits, c.isDigit = true

/-- A text that does not go on with a number. -/
def Stops (rest : List Char) : Prop :=
  ∀ c more, rest = c :: more → c.isDigit = false ∧ c ≠ '.' ∧ c ≠ 'e' ∧ c ≠ 'E'

theorem stops_nil : Stops [] := nofun

theorem stops_cons {c : Char} (h : c.isDigit = false ∧ c ≠ '.' ∧ c ≠ 'e' ∧ c ≠ 'E') (more : List Char) :
    Stops (c :: more) := by
  intro d rest heq
  cases heq
  exact h

/-- A text that does not start with a digit. -/
def NoDigit (rest : List Char) : Prop := ∀ c more, rest = c :: more → c.isDigit = false

theorem takeWhile_digits {ds rest : List Char} (hds : ∀ c ∈ ds, c.isDigit = true) (hrest : NoDigit rest) :
    (ds ++ rest).takeWhile Char.isDigit = ds := by
  rw [List.takeWhile_append_of_pos hds]
  have hnone : rest.takeWhile Char.isDigit = [] := by
    cases rest with
    | nil => rfl
    | cons c more => simp [hrest c more rfl]
  rw [hnone, List.append_nil]

/-- How the fraction of a literal is written. -/
def fractionChars (fraction : List Char) : List Char := if fraction.isEmpty then [] else '.' :: fraction

/-- How the exponent of a literal is written. -/
def exponentChars : Option (Bool × List Char) → List Char
  | some (negative, digits) => 'e' :: (if negative then '-' else '+') :: digits
  | none => []

theorem chars_eq (l : Literal) :
    l.chars = signChars l.negative ++ l.whole ++ fractionChars l.fraction ++ exponentChars l.exponent := by
  unfold Literal.chars fractionChars exponentChars
  rfl

variable {l : Literal} {rest : List Char}

theorem noDigit_exponentChars (hrest : Stops rest) : NoDigit (exponentChars l.exponent ++ rest) := by
  intro c more h
  unfold exponentChars at h
  split at h
  · cases h
    rfl
  · exact (hrest c more h).1

theorem noDigit_fractionChars (hrest : Stops rest) :
    NoDigit (fractionChars l.fraction ++ (exponentChars l.exponent ++ rest)) := by
  intro c more h
  unfold fractionChars at h
  split at h
  · exact noDigit_exponentChars hrest c more h
  · cases h
    rfl

theorem wholeDigits_append (hl : IsNumber l) (hrest : Stops rest) :
    wholeDigits (l.whole ++ (fractionChars l.fraction ++ (exponentChars l.exponent ++ rest))) = l.whole := by
  have hdigits : (l.whole ++ (fractionChars l.fraction ++ (exponentChars l.exponent ++ rest))).takeWhile Char.isDigit =
      l.whole := takeWhile_digits hl.isDigit_whole (noDigit_fractionChars hrest)
  unfold wholeDigits
  split
  · rename_i more hzero
    cases hwhole : l.whole with
    | nil => exact absurd hwhole hl.whole_ne_nil
    | cons c digits =>
      rw [hwhole] at hzero
      cases hzero
      rw [hl.whole_of_zero digits hwhole]
  · exact hdigits

theorem scanFraction?_append (hl : IsNumber l) (hrest : Stops rest) :
    scanFraction? (fractionChars l.fraction ++ (exponentChars l.exponent ++ rest)) =
      some (l.fraction, (fractionChars l.fraction).length) := by
  cases hfraction : l.fraction with
  | nil =>
    have hnone : ∀ more, exponentChars l.exponent ++ rest ≠ '.' :: more := by
      intro more h
      unfold exponentChars at h
      split at h
      · cases h
      · exact (hrest _ _ h).2.1 rfl
    show scanFraction? (exponentChars l.exponent ++ rest) = some ([], 0)
    unfold scanFraction?
    split
    · rename_i more h
      exact absurd h (hnone more)
    · rfl
  | cons d ds =>
    have hdigits : (d :: ds ++ (exponentChars l.exponent ++ rest)).takeWhile Char.isDigit = d :: ds := by
      apply takeWhile_digits _ (noDigit_exponentChars hrest)
      rw [← hfraction]
      exact hl.isDigit_fraction
    show scanFraction? ('.' :: (d :: ds ++ (exponentChars l.exponent ++ rest))) = _
    simp only [scanFraction?, hdigits, fractionChars, List.isEmpty_cons, Bool.false_eq_true, if_false, List.length_cons,
      Option.some.injEq, Prod.mk.injEq, true_and]
    omega

theorem scanExponent?_append (hl : IsNumber l) (hrest : Stops rest) :
    scanExponent? (exponentChars l.exponent ++ rest) = some (l.exponent, (exponentChars l.exponent).length) := by
  cases hexponent : l.exponent with
  | none =>
    show scanExponent? rest = some (none, 0)
    unfold scanExponent?
    split
    · rename_i c more
      obtain ⟨_, _, he, hE⟩ := hrest c more rfl
      rw [if_neg fun h => h.elim he hE]
    · rfl
  | some e =>
    obtain ⟨negative, digits⟩ := e
    have hdigits : (digits ++ rest).takeWhile Char.isDigit = digits :=
      takeWhile_digits (hl.isDigit_exponent negative digits hexponent) fun c more h => (hrest c more h).1
    have hne : digits.isEmpty = false := by
      rw [List.isEmpty_eq_false_iff]
      exact hl.exponent_ne_nil negative digits hexponent
    cases negative <;>
      simp only [exponentChars, List.cons_append, scanExponent?, hdigits, hne, Bool.false_eq_true, if_false, if_true,
        true_or, List.length_cons, Option.some.injEq, Prod.mk.injEq, true_and] <;> omega

/-- The digits of a literal are read back, with the number of characters that they take. -/
theorem scanNumber?_append (hl : IsNumber l) (hrest : Stops rest) (signs : Nat) :
    scanNumber? l.negative signs (l.whole ++ (fractionChars l.fraction ++ (exponentChars l.exponent ++ rest))) =
      some (.number l, signs + l.whole.length + (fractionChars l.fraction).length +
        (exponentChars l.exponent).length) := by
  have hwhole := wholeDigits_append hl hrest
  have hne : l.whole.isEmpty = false := by
    rw [List.isEmpty_eq_false_iff]
    exact hl.whole_ne_nil
  have hfraction := scanFraction?_append hl hrest
  have hexponent := scanExponent?_append hl hrest
  have hdrop : (l.whole ++ (fractionChars l.fraction ++ (exponentChars l.exponent ++ rest))).drop
      (l.whole.length + (fractionChars l.fraction).length) = exponentChars l.exponent ++ rest := by
    rw [← List.append_assoc, ← List.length_append, List.drop_left]
  rw [scanNumber?, hwhole]
  simp only [hne, Bool.false_eq_true, if_false, List.drop_left, hfraction, hdrop, hexponent, Option.bind_eq_bind,
    Option.bind_some]
  rfl

/-- A digit starts a number without a sign. -/
theorem scan?_of_isDigit {c : Char} (hc : c.isDigit = true) (cs : List Char) :
    scan? c cs = (scanNumber? false 0 (c :: cs)).map fun (j, n) => (.scalar j, n) := by
  unfold scan?
  split
  case h_12 => rfl
  all_goals exact absurd hc (by decide)

theorem scans_number (hl : IsNumber l) (hrest : Stops rest) :
    Scans (l.chars ++ rest) (.scalar (.number l)) rest := by
  have hscan := scanNumber?_append hl hrest
  have hchars : l.chars ++ rest = signChars l.negative ++
      (l.whole ++ (fractionChars l.fraction ++ (exponentChars l.exponent ++ rest))) := by
    rw [chars_eq]
    simp only [List.append_assoc]
  rw [hchars]
  cases hsign : l.negative with
  | true =>
    rw [hsign] at hscan
    show Scans ('-' :: (l.whole ++ (fractionChars l.fraction ++ (exponentChars l.exponent ++ rest)))) _ rest
    rw [← List.append_assoc (fractionChars l.fraction), ← List.append_assoc l.whole] at hscan ⊢
    apply scans_of_scan? rfl
    rw [scan?, hscan 1, Option.map_some, List.length_append, List.length_append]
    simp only [Option.some.injEq, Prod.mk.injEq, true_and]
    omega
  | false =>
    rw [hsign] at hscan
    show Scans (l.whole ++ (fractionChars l.fraction ++ (exponentChars l.exponent ++ rest))) _ rest
    cases hwhole : l.whole with
    | nil => exact absurd hwhole hl.whole_ne_nil
    | cons c digits =>
      have hc : c.isDigit = true := hl.isDigit_whole c (by rw [hwhole]; exact List.mem_cons_self)
      have hspace : isSpace c = false := by
        cases hspace : isSpace c with
        | false => rfl
        | true =>
          simp only [isSpace, Bool.or_eq_true, beq_iff_eq] at hspace
          rcases hspace with ((rfl | rfl) | rfl) | rfl <;> exact absurd hc (by decide)
      rw [hwhole, List.cons_append, ← List.append_assoc (fractionChars l.fraction), ← List.append_assoc digits] at hscan
      rw [List.cons_append, ← List.append_assoc (fractionChars l.fraction), ← List.append_assoc digits]
      apply scans_of_scan? hspace
      rw [scan?_of_isDigit hc, hscan 0, Option.map_some, List.length_append, List.length_append, List.length_cons]
      simp only [Option.some.injEq, Prod.mk.injEq, true_and]
      omega

end TreeQuery.Json
