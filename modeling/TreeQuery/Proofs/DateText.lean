import Std.Data.String.ToNat
import TreeQuery.Calendar.Date

/-!
# Dates as text

Every date is read back from its text (`ofText?_text`), years before 0 and after 9999 included: these have a sign, and
a sign lets a year take any number of digits.

- a padded number is read back from its digits (`readNumber?_padded`), and so is a year (`readYear?_chars`).
-/

namespace TreeQuery.Date

/-! ## Padded numbers -/

/-- A number in decimal, with zeros before it up to a width. -/
def padded (width n : Nat) : List Char := (Nat.toDigits 10 n).leftpad width '0'

section Padded

variable (width n : Nat)

theorem isDigit_padded : ∀ c ∈ padded width n, c.isDigit = true := by
  intro c hc
  rcases List.mem_append.1 hc with hc | hc
  · rw [(List.mem_replicate.1 hc).2]
    rfl
  · exact Nat.isDigit_of_mem_toDigits (by decide) (by decide) hc

theorem ofDigitChars_padded : Nat.ofDigitChars 10 (padded width n) 0 = n := by
  rw [padded, List.leftpad, Nat.ofDigitChars_append, Nat.ofDigitChars_replicate_zero, Nat.mul_zero,
    Nat.ofDigitChars_ten_toDigits]

theorem exists_padded_eq_cons : ∃ c cs, padded width n = c :: cs ∧ c.isDigit = true := by
  have hdigits := isDigit_padded width n
  have hlength : (padded width n).length = max width (Nat.toDigits 10 n).length := List.length_leftpad
  have hpos : 0 < (Nat.toDigits 10 n).length := Nat.length_toDigits_pos
  cases h : padded width n with
  | nil =>
    rw [h, List.length_nil] at hlength
    omega
  | cons c cs =>
    rw [h] at hdigits
    exact ⟨c, cs, rfl, hdigits c List.mem_cons_self⟩

end Padded

theorem length_padded {width n : Nat} (hn : (Nat.toDigits 10 n).length ≤ width) :
    (padded width n).length = width := by
  have hlength : (padded width n).length = max width (Nat.toDigits 10 n).length := List.length_leftpad
  omega

theorem isBlank_of_isDigit {c : Char} (h : c.isDigit = true) : Text.isBlank c = false := by
  have hlow : 48 ≤ c.toNat ∧ c.toNat ≤ 57 := by
    simp only [Char.isDigit, Bool.and_eq_true, decide_eq_true_eq] at h
    exact ⟨h.1, h.2⟩
  simp only [Text.isBlank, Bool.or_eq_false_iff, Bool.and_eq_false_iff, decide_eq_false_iff_not, beq_eq_false_iff_ne]
  omega

theorem trimStart_cons {c : Char} (h : Text.isBlank c = false) (cs : List Char) :
    Text.trimStart (c :: cs) = c :: cs := by simp [Text.trimStart, h]

theorem trimStart_padded (width n : Nat) (rest : List Char) :
    Text.trimStart (padded width n ++ rest) = padded width n ++ rest := by
  obtain ⟨c, cs, hpadded, hc⟩ := exists_padded_eq_cons width n
  rw [hpadded, List.cons_append, trimStart_cons (isBlank_of_isDigit hc)]

/-- The digits of a padded number end where something else comes. -/
theorem takeWhile_padded (width n : Nat) {c : Char} (hc : c.isDigit = false) (rest : List Char) :
    (padded width n ++ c :: rest).takeWhile Char.isDigit = padded width n := by
  rw [List.takeWhile_append_of_pos (isDigit_padded width n)]
  simp [hc]

/-- A number that fits its width is read up to the width. -/
theorem readNumber?_padded {width n : Nat} (hn : (Nat.toDigits 10 n).length ≤ width) (rest : List Char) :
    readNumber? width (padded width n ++ rest) = some (n, rest) := by
  have hlength := length_padded hn
  have htake : (padded width n ++ rest).take width = padded width n := List.take_left' hlength
  have hdigits : (padded width n).takeWhile Char.isDigit = padded width n := by
    have h : (padded width n ++ []).takeWhile Char.isDigit = padded width n ++ [].takeWhile Char.isDigit :=
      List.takeWhile_append_of_pos (isDigit_padded width n)
    rw [List.append_nil] at h
    exact h.trans (List.append_nil _)
  have hne : (padded width n).isEmpty = false := by
    obtain ⟨c, cs, hpadded, _⟩ := exists_padded_eq_cons width n
    rw [hpadded]
    rfl
  unfold readNumber?
  simp only [trimStart_padded, htake, hdigits, hne, Bool.false_eq_true, if_false, ofDigitChars_padded, List.drop_left]

/-! ## Years -/

/-- The sign of a year that needs one. -/
def yearSign (year : Int) : List Char := if year < 0 then ['-'] else if 9999 < year then ['+'] else []

theorem chars_eq (d : Date) : d.chars =
    yearSign d.year ++ (padded 4 d.year.natAbs ++ '-' :: (padded 2 d.month ++ '-' :: padded 2 d.day)) := by
  unfold chars yearSign padded
  simp only [List.append_assoc, List.cons_append]

theorem signed_padded (n : Nat) (rest : List Char) (f : Int → Int) :
    readYear?.signed (padded 4 n ++ '-' :: rest) f = some (f n, '-' :: rest) := by
  have hdigits := takeWhile_padded 4 n (c := '-') rfl rest
  have hne : (padded 4 n).isEmpty = false := by
    obtain ⟨c, cs, hpadded, _⟩ := exists_padded_eq_cons 4 n
    rw [hpadded]
    rfl
  unfold readYear?.signed
  simp only [hdigits, hne, Bool.false_eq_true, if_false, ofDigitChars_padded, List.drop_left]

/-- A year is read back with its sign. -/
theorem readYear?_chars (year : Int) (rest : List Char) :
    readYear? (yearSign year ++ (padded 4 year.natAbs ++ '-' :: rest)) = some (year, '-' :: rest) := by
  unfold yearSign
  split
  · rename_i hneg
    have habs : -(year.natAbs : Int) = year := by omega
    show readYear?.signed (padded 4 year.natAbs ++ '-' :: rest) (fun n => -n) = _
    rw [signed_padded, habs]
  split
  · have habs : (year.natAbs : Int) = year := by omega
    show readYear?.signed (padded 4 year.natAbs ++ '-' :: rest) id = _
    rw [signed_padded, id, habs]
  · have habs : (year.natAbs : Int) = year := by omega
    have hfits : (Nat.toDigits 10 year.natAbs).length ≤ 4 :=
      (Nat.length_toDigits_le_iff (by decide) (by decide)).2 (by omega)
    obtain ⟨c, cs, hpadded, hc⟩ := exists_padded_eq_cons 4 year.natAbs
    have hnumber : readNumber? 4 (padded 4 year.natAbs ++ '-' :: rest) = some (year.natAbs, '-' :: rest) :=
      readNumber?_padded hfits ('-' :: rest)
    rw [List.nil_append, readYear?, trimStart_padded, hpadded, List.cons_append]
    rw [hpadded, List.cons_append] at hnumber
    split
    · rename_i h; cases h; exact absurd hc (by decide)
    · rename_i h; cases h; exact absurd hc (by decide)
    · rw [hnumber]
      simp only [Option.map_some, habs]

/-! ## Dates -/

theorem daysInMonth_of_lt {month : Nat} (h : 12 < month) (year : Int) : daysInMonth year month = 0 := by
  unfold daysInMonth
  split
  case h_13 => rfl
  all_goals omega

theorem daysInMonth_le (year : Int) (month : Nat) : daysInMonth year month ≤ 31 := by
  unfold daysInMonth
  split
  case h_12 => split <;> decide
  all_goals decide

theorem month_le (d : Date) : d.month ≤ 12 := by
  apply Nat.le_of_not_lt
  intro h
  have hnone := daysInMonth_of_lt h d.year
  have hpos := d.day_pos
  have hle := d.day_le
  omega

theorem ofParts?_self (d : Date) : ofParts? d.year d.month d.day = some d := by
  unfold ofParts?
  rw [dif_pos ⟨d.year_low, d.year_high, d.day_pos, d.day_le⟩]

theorem readHyphen?_cons (rest : List Char) : readHyphen? ('-' :: rest) = some rest := rfl

/-- **A date is read back from its text.** -/
theorem ofText?_text (d : Date) : ofText? d.text = some d := by
  have htwo {n : Nat} (hn : n < 100) : (Nat.toDigits 10 n).length ≤ 2 :=
    (Nat.length_toDigits_le_iff (by decide) (by decide)).2 hn
  have hmonth : (Nat.toDigits 10 d.month).length ≤ 2 := by
    have hle := d.month_le
    exact htwo (by omega)
  have hday : (Nat.toDigits 10 d.day).length ≤ 2 := by
    have hle := d.day_le
    have hmost := daysInMonth_le d.year d.month
    exact htwo (by omega)
  have htext : d.text.toList = d.chars := String.toList_ofList
  have hlast : readNumber? 2 (padded 2 d.day) = some (d.day, []) := by
    have := readNumber?_padded hday []
    rw [List.append_nil] at this
    exact this
  rw [ofText?, htext, chars_eq, readYear?_chars]
  simp only [Option.bind_eq_bind, Option.bind_some, readHyphen?_cons, readNumber?_padded hmonth, hlast]
  exact ofParts?_self d

end TreeQuery.Date
