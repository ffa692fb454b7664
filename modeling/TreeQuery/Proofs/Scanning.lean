import Mathlib.Data.List.TakeWhile
import TreeQuery.Proofs.DateText
import TreeQuery.Token.Lexer

/-!
# What a token takes

A token is read from its first character on, and takes as many characters as it can. Whatever follows these characters,
they are read as the same token when they stand alone (`Scans.of_append`), and when a character follows them that does
not go on with the token (`Scans.append`), as no blank does (`Ends.of_blank`). So what a token was cut from *spells* it
(`spells_take`), and is read as it wherever blanks stand around it.

- `Scans` lists the ways in which a token can be read, one for each kind of first character (`scan_eq_ok_iff`).
- A class of characters, digits or the characters of names, ends before any other character
  (`takeWhile_append_of_ends`), and ends where it did if the text is cut off at its end or later
  (`takeWhile_of_append`).
-/

namespace TreeQuery.Token

open Text

variable {c : Char} {cs rest front later : List Char} {t : Token} {n : Nat}

/-! ## Classes of characters -/

/-- A text in which a class of characters does not go on: it is empty or starts with a character of another class. -/
def Ends (p : Char → Bool) (cs : List Char) : Prop := ∀ c ∈ cs.head?, p c = false

section Ends

variable {p q : Char → Bool}

theorem ends_nil (p : Char → Bool) : Ends p [] := nofun

theorem ends_cons (h : p c = false) (cs : List Char) : Ends p (c :: cs) := by
  rintro d hd
  cases hd
  exact h

theorem Ends.head?_ne (h : Ends p cs) (hc : p c = true) : cs.head? ≠ some c := by
  intro hhead
  rw [h c hhead] at hc
  cases hc

theorem Ends.mono (h : Ends q cs) (hpq : ∀ c, p c = true → q c = true) : Ends p cs :=
  fun c hc => Bool.eq_false_iff.2 fun hp => Bool.eq_false_iff.1 (h c hc) (hpq c hp)

end Ends

/-- Visible characters of ASCII are no blanks. -/
theorem isBlank_of_visible (hlow : 0x20 < c.toNat) (hhigh : c.toNat < 0x7f) : isBlank c = false := by
  simp only [isBlank, Bool.or_eq_false_iff, Bool.and_eq_false_iff, decide_eq_false_iff_not, beq_eq_false_iff_ne]
  omega

/-- The codes of letters. -/
theorem isAlpha_iff : c.isAlpha = true ↔ (65 ≤ c.toNat ∧ c.toNat ≤ 90) ∨ (97 ≤ c.toNat ∧ c.toNat ≤ 122) := by
  have hclasses : c.isAlpha =
      (decide (65 ≤ c.toNat ∧ c.toNat ≤ 90) || (decide (97 ≤ c.toNat) && decide (c.toNat ≤ 122))) := rfl
  rw [hclasses, Bool.or_eq_true, Bool.and_eq_true, decide_eq_true_eq, decide_eq_true_eq, decide_eq_true_eq]

theorem isBlank_of_isNamePart (h : isNamePart c = true) : isBlank c = false := by
  rw [isNamePart, Char.isAlphanum, Bool.or_eq_true, Bool.or_eq_true, isAlpha_iff, beq_iff_eq] at h
  rcases h with ((h | h) | h) | rfl
  · exact isBlank_of_visible (by omega) (by omega)
  · exact isBlank_of_visible (by omega) (by omega)
  · exact Date.isBlank_of_isDigit h
  · rfl

section Classes

variable {p : Char → Bool}

/-- The characters of a class at the start of a text are those at the start of a part of it, if they end there, or if
what follows has none. -/
theorem takeWhile_append_eq (h : front.dropWhile p ≠ [] ∨ later.takeWhile p = []) :
    (front ++ later).takeWhile p = front.takeWhile p ∧ (front ++ later).dropWhile p = front.dropWhile p ++ later := by
  induction front with
  | nil =>
    have hnone : later.takeWhile p = [] := h.resolve_left fun hne => hne rfl
    have hall : later.takeWhile p ++ later.dropWhile p = later := List.takeWhile_append_dropWhile
    rw [hnone] at hall
    exact ⟨hnone, hall⟩
  | cons d front ih =>
    by_cases hd : p d = true
    · rw [List.dropWhile_cons_of_pos hd] at h
      simp only [List.cons_append, List.takeWhile_cons_of_pos hd, List.dropWhile_cons_of_pos hd, ih h, and_self]
    · simp only [List.cons_append, List.takeWhile_cons_of_neg hd, List.dropWhile_cons_of_neg hd, and_self]

theorem takeWhile_of_ends (h : Ends p later) : later.takeWhile p = [] := by
  cases later with
  | nil => rfl
  | cons d later => exact List.takeWhile_cons_of_neg (Bool.eq_false_iff.1 (h d rfl))

/-- A text of a class that stands before another character ends there. -/
theorem takeWhile_append_of_ends (cs : List Char) (h : Ends p later) :
    (cs ++ later).takeWhile p = cs.takeWhile p ∧ (cs ++ later).dropWhile p = cs.dropWhile p ++ later :=
  takeWhile_append_eq (.inr (takeWhile_of_ends h))

/-- A text of a class that ends before some place does not depend on what is there. -/
theorem takeWhile_of_append (h : ((front ++ later).takeWhile p).length ≤ front.length) :
    (front ++ later).takeWhile p = front.takeWhile p ∧ (front ++ later).dropWhile p = front.dropWhile p ++ later := by
  refine takeWhile_append_eq (Classical.or_iff_not_imp_left.2 fun hall => ?_)
  have hfront : ∀ d ∈ front, p d = true := List.dropWhile_eq_nil_iff.1 (Classical.not_not.1 hall)
  rw [List.takeWhile_append_of_pos hfront, List.length_append] at h
  exact List.length_eq_zero_iff.1 (by omega)

end Classes

/-- Whether a number or a date can go on with a character. -/
def isNumberPart (c : Char) : Bool := c.isDigit || c == '.' || c == '-'

theorem isNumberPart_of_isDigit (h : c.isDigit = true) : isNumberPart c = true := by
  rw [isNumberPart, h]
  rfl

theorem digits_append_of_ends (cs : List Char) (h : Ends isNumberPart later) :
    leadingDigits (cs ++ later) = leadingDigits cs ∧ afterDigits (cs ++ later) = afterDigits cs ++ later :=
  takeWhile_append_of_ends cs (h.mono fun _ => isNumberPart_of_isDigit)

theorem digits_of_append (h : (leadingDigits (front ++ later)).length ≤ front.length) :
    leadingDigits (front ++ later) = leadingDigits front ∧ afterDigits (front ++ later) = afterDigits front ++ later :=
  takeWhile_of_append h

theorem leadingDigits_append_afterDigits (cs : List Char) : leadingDigits cs ++ afterDigits cs = cs :=
  List.takeWhile_append_dropWhile

theorem length_digits (cs : List Char) : (leadingDigits cs).length + (afterDigits cs).length = cs.length := by
  rw [← List.length_append, leadingDigits_append_afterDigits]

/-! ## Numbers -/

theorem fractionDigits_append (cs : List Char) (h : Ends isNumberPart later) :
    fractionDigits (cs ++ later) = fractionDigits cs := by
  cases cs with
  | nil =>
    have hpoint : later.head? ≠ some '.' := h.head?_ne rfl
    rw [List.nil_append, fractionDigits.eq_def]
    split
    · exact absurd rfl hpoint
    · rfl
  | cons d cs =>
    by_cases hd : d = '.'
    · subst hd
      exact (digits_append_of_ends cs h).1
    · simp [fractionDigits, hd]

/-- A fraction has a point before its digits. -/
theorem length_fractionDigits (h : fractionDigits cs ≠ []) : (fractionDigits cs).length + 1 ≤ cs.length := by
  unfold fractionDigits at h ⊢
  split at h
  · exact Nat.succ_le_succ (List.takeWhile_sublist _).length_le
  · exact absurd rfl h

theorem scanNumber_append (negative : Bool) (signs : Nat) (cs : List Char) (h : Ends isNumberPart later) :
    scanNumber negative signs (cs ++ later) = scanNumber negative signs cs := by
  obtain ⟨hdigits, hafter⟩ := digits_append_of_ends cs h
  unfold scanNumber
  rw [hdigits, hafter, fractionDigits_append _ h]

/-- A fraction that ends before some place does not depend on what is there. -/
theorem fractionDigits_of_append
    (h : fractionDigits (front ++ later) = [] ∨ (fractionDigits (front ++ later)).length + 1 ≤ front.length) :
    fractionDigits (front ++ later) = fractionDigits front := by
  cases front with
  | nil => exact h.resolve_right (Nat.not_succ_le_zero _)
  | cons d front =>
    by_cases hd : d = '.'
    · subst hd
      have hdigits : (leadingDigits (front ++ later)).length ≤ front.length := by
        rcases h with h | h
        · have hnone : leadingDigits (front ++ later) = [] := h
          rw [hnone]
          exact Nat.zero_le _
        · exact Nat.le_of_succ_le_succ h
      exact (digits_of_append hdigits).1
    · simp [fractionDigits, hd]

/-- What a number takes: its digits or, if it has a fraction, those of the fraction as well. -/
theorem length_scanNumber {negative : Bool} {signs : Nat} (h : scanNumber negative signs cs = .ok (t, n)) :
    fractionDigits (afterDigits cs) = [] ∧ n = signs + (leadingDigits cs).length ∨
      fractionDigits (afterDigits cs) ≠ [] ∧
        n = signs + (leadingDigits cs).length + 1 + (fractionDigits (afterDigits cs)).length := by
  unfold scanNumber at h
  split at h
  · rename_i hnone
    dsimp only at h
    split at h
    · cases h
      exact .inl ⟨hnone, rfl⟩
    · cases h
  · rename_i hfraction
    cases h
    exact .inr ⟨hfraction, rfl⟩

/-- A number takes its digits at least, and no more than there are. -/
theorem scanNumber_bounds {negative : Bool} {signs : Nat} (hdigits : leadingDigits cs ≠ [])
    (h : scanNumber negative signs cs = .ok (t, n)) : 0 < n ∧ n ≤ cs.length + signs := by
  have hall := length_digits cs
  have hpos : 0 < (leadingDigits cs).length := List.length_pos_iff.2 hdigits
  rcases length_scanNumber h with ⟨_, hn⟩ | ⟨hfraction, hn⟩
  · omega
  · have hrest := length_fractionDigits hfraction
    omega

theorem scanNumber_of_append {negative : Bool} {signs : Nat}
    (h : scanNumber negative signs (front ++ later) = .ok (t, n)) (hn : n ≤ front.length + signs) :
    scanNumber negative signs front = .ok (t, n) := by
  have hlength := length_scanNumber h
  have hwhole : (leadingDigits (front ++ later)).length ≤ front.length := by omega
  obtain ⟨hdigits, hafter⟩ := digits_of_append hwhole
  have hall := length_digits front
  rw [hdigits, hafter] at hlength
  have hfraction : fractionDigits (afterDigits front ++ later) = fractionDigits (afterDigits front) := by
    refine fractionDigits_of_append ?_
    rcases hlength with ⟨hnone, _⟩ | ⟨_, hlength⟩
    · exact .inl hnone
    · exact .inr (by omega)
  unfold scanNumber at h ⊢
  rw [hdigits, hafter, hfraction] at h
  exact h

/-! ## Dates -/

theorem dateGroups?_eq_some {year month day : List Char} : dateGroups? cs = some (year, month, day) ↔
    ∃ rest last, afterDigits cs = '-' :: rest ∧ afterDigits rest = '-' :: last ∧ leadingDigits cs = year ∧
      leadingDigits rest = month ∧ leadingDigits last = day ∧ year ≠ [] ∧ month ≠ [] ∧ day ≠ [] := by
  unfold dateGroups?
  constructor
  · intro h
    split at h
    · rename_i rest hyear
      split at h
      · rename_i last hmonth
        split at h
        · cases h
        · rename_i hgroups
          simp only [not_or] at hgroups
          cases h
          exact ⟨rest, last, hyear, hmonth, rfl, rfl, rfl, hgroups⟩
      · cases h
    · cases h
  · rintro ⟨rest, last, hyear, hmonth, rfl, rfl, rfl, hgroups⟩
    have hnone : ¬(leadingDigits cs = [] ∨ leadingDigits rest = [] ∨ leadingDigits last = []) := by
      simp only [not_or]
      exact hgroups
    simp only [hyear, hmonth, if_neg hnone]

theorem isNumberPart_of_mem_leadingDigits (h : c ∈ leadingDigits cs) : isNumberPart c = true :=
  isNumberPart_of_isDigit (List.mem_takeWhile_imp h)

/-- A date at the start of a text: its groups with hyphens between them, and what follows. -/
theorem eq_of_dateGroups? {year month day : List Char} (h : dateGroups? cs = some (year, month, day)) :
    (∃ rest, cs = (year ++ '-' :: (month ++ '-' :: day)) ++ rest) ∧
      ∀ c ∈ year ++ '-' :: (month ++ '-' :: day), isNumberPart c = true := by
  obtain ⟨rest, last, hyear, hmonth, rfl, rfl, rfl, _⟩ := dateGroups?_eq_some.1 h
  constructor
  · refine ⟨afterDigits last, ?_⟩
    rw [List.append_assoc, List.cons_append, List.append_assoc, List.cons_append, leadingDigits_append_afterDigits,
      ← hmonth, leadingDigits_append_afterDigits, ← hyear, leadingDigits_append_afterDigits]
  · intro c hc
    rw [List.mem_append, List.mem_cons, List.mem_append, List.mem_cons] at hc
    rcases hc with hc | rfl | hc | rfl | hc
    · exact isNumberPart_of_mem_leadingDigits hc
    · rfl
    · exact isNumberPart_of_mem_leadingDigits hc
    · rfl
    · exact isNumberPart_of_mem_leadingDigits hc

/-- A group that a hyphen follows stays as it is, whatever comes later. -/
theorem digits_append_of_hyphen (h : afterDigits front = '-' :: rest) (later : List Char) :
    leadingDigits (front ++ later) = leadingDigits front ∧ afterDigits (front ++ later) = '-' :: (rest ++ later) := by
  have hne : afterDigits front ≠ [] := by
    rw [h]
    nofun
  obtain ⟨hdigits, hafter⟩ : leadingDigits (front ++ later) = leadingDigits front ∧
      afterDigits (front ++ later) = afterDigits front ++ later := takeWhile_append_eq (.inl hne)
  rw [h] at hafter
  exact ⟨hdigits, hafter⟩

/-- A date is there whatever follows it: only its last group may go on. -/
theorem dateGroups?_append {year month day : List Char} (h : dateGroups? front = some (year, month, day))
    (later : List Char) : ∃ day', dateGroups? (front ++ later) = some (year, month, day') := by
  obtain ⟨rest, last, hyear, hmonth, rfl, rfl, rfl, hyearDigits, hmonthDigits, hdayDigits⟩ := dateGroups?_eq_some.1 h
  obtain ⟨hyear', hrest⟩ := digits_append_of_hyphen hyear later
  obtain ⟨hmonth', hlast⟩ := digits_append_of_hyphen hmonth later
  have hday : leadingDigits (last ++ later) ≠ [] := by
    cases last with
    | nil => exact absurd rfl hdayDigits
    | cons d last =>
      by_cases hd : d.isDigit = true
      · rw [leadingDigits, List.cons_append, List.takeWhile_cons_of_pos hd]
        nofun
      · exact absurd (List.takeWhile_cons_of_neg hd) hdayDigits
  exact ⟨_, dateGroups?_eq_some.2 ⟨_, _, hrest, hlast, hyear', hmonth', rfl, hyearDigits, hmonthDigits, hday⟩⟩

theorem dateGroups?_eq_none_of_append (h : dateGroups? (front ++ later) = none) : dateGroups? front = none := by
  cases hfront : dateGroups? front with
  | none => rfl
  | some groups =>
    obtain ⟨day', hsome⟩ := dateGroups?_append hfront later
    rw [h] at hsome
    cases hsome

/-- A group that a hyphen follows before some place does not depend on what is there. -/
theorem hyphen_of_append (h : afterDigits (front ++ later) = '-' :: rest)
    (hlength : (leadingDigits (front ++ later)).length + 1 ≤ front.length) :
    ∃ rest', afterDigits front = '-' :: rest' ∧ rest = rest' ++ later ∧
      leadingDigits (front ++ later) = leadingDigits front := by
  obtain ⟨hdigits, hafter⟩ := digits_of_append (Nat.le_of_succ_le hlength)
  have hall := length_digits front
  rw [hafter] at h
  cases hfront : afterDigits front with
  | nil =>
    rw [hdigits] at hlength
    rw [hfront, List.length_nil] at hall
    omega
  | cons d rest' =>
    rw [hfront, List.cons_append] at h
    cases h
    exact ⟨rest', rfl, rfl, hdigits⟩

/-- A date that ends before some place does not depend on what is there. -/
theorem dateGroups?_of_append {year month day : List Char}
    (h : dateGroups? (front ++ later) = some (year, month, day))
    (hlength : year.length + 1 + month.length + 1 + day.length ≤ front.length) :
    dateGroups? front = some (year, month, day) := by
  obtain ⟨_, _, hyear, hmonth, rfl, rfl, rfl, hdigits⟩ := dateGroups?_eq_some.1 h
  obtain ⟨rest, hrest, rfl, hyear'⟩ := hyphen_of_append hyear (by omega)
  have hfront := length_digits front
  rw [hrest, List.length_cons, ← hyear'] at hfront
  obtain ⟨last, hlast, rfl, hmonth'⟩ := hyphen_of_append hmonth (by omega)
  have hall := length_digits rest
  rw [hlast, List.length_cons, ← hmonth'] at hall
  have hday : leadingDigits (last ++ later) = leadingDigits last := (digits_of_append (by omega)).1
  exact dateGroups?_eq_some.2 ⟨rest, last, hrest, hlast, hyear'.symm, hmonth'.symm, hday.symm, hdigits⟩

/-- Characters of a class at the start of a text lie before any place where another character follows. -/
theorem length_le_of_ends {p : Char → Bool} {word rest : List Char} (hword : ∀ c ∈ word, p c = true)
    (h : front ++ later = word ++ rest) (hends : Ends p later) : word.length ≤ front.length := by
  induction front generalizing word with
  | nil =>
    cases word with
    | nil => exact Nat.le_refl _
    | cons c word =>
      have hhead : later.head? = some c := by
        rw [← List.nil_append later, h]
        rfl
      exact absurd hhead (hends.head?_ne (hword c List.mem_cons_self))
  | cons d front ih =>
    cases word with
    | nil => exact Nat.zero_le _
    | cons c word =>
      rw [List.cons_append, List.cons_append, List.cons.injEq] at h
      exact Nat.succ_le_succ (ih (fun c hc => hword c (List.mem_cons_of_mem _ hc)) h.2)

theorem dateGroups?_append_of_ends (cs : List Char) (h : Ends isNumberPart later) :
    dateGroups? (cs ++ later) = dateGroups? cs := by
  cases hwhole : dateGroups? (cs ++ later) with
  | some groups =>
    -- A date has no other characters, so it ends before `later` begins.
    obtain ⟨⟨rest, htext⟩, hword⟩ := eq_of_dateGroups? hwhole
    have hlength := length_le_of_ends hword htext h
    simp only [List.length_append, List.length_cons] at hlength
    exact (dateGroups?_of_append hwhole (by omega)).symm
  | none => exact (dateGroups?_eq_none_of_append hwhole).symm

theorem scanDigits_append (cs : List Char) (h : Ends isNumberPart later) :
    scanDigits (cs ++ later) = scanDigits cs := by
  unfold scanDigits
  rw [dateGroups?_append_of_ends cs h, scanNumber_append _ _ cs h]

/-- What a date takes. -/
theorem length_scanDigits {year month day : List Char} (hdate : dateGroups? cs = some (year, month, day))
    (h : scanDigits cs = .ok (t, n)) : n = year.length + 1 + month.length + 1 + day.length := by
  unfold scanDigits at h
  rw [hdate] at h
  dsimp only at h
  split at h
  · cases h
    rfl
  · cases h

theorem scanDigits_bounds (hc : c.isDigit = true) (h : scanDigits (c :: rest) = .ok (t, n)) :
    0 < n ∧ n ≤ (c :: rest).length := by
  cases hdate : dateGroups? (c :: rest) with
  | some groups =>
    obtain ⟨⟨last, htext⟩, _⟩ := eq_of_dateGroups? hdate
    have hlength := length_scanDigits hdate h
    rw [htext]
    simp only [List.length_append, List.length_cons]
    omega
  | none =>
    have hdigits : leadingDigits (c :: rest) ≠ [] := by
      rw [leadingDigits, List.takeWhile_cons_of_pos hc]
      nofun
    unfold scanDigits at h
    rw [hdate] at h
    have hbounds : 0 < n ∧ n ≤ (c :: rest).length + 0 := scanNumber_bounds hdigits h
    exact hbounds

theorem scanDigits_of_append (h : scanDigits (front ++ later) = .ok (t, n)) (hn : n ≤ front.length) :
    scanDigits front = .ok (t, n) := by
  cases hdate : dateGroups? (front ++ later) with
  | some groups =>
    have hlength := length_scanDigits hdate h
    have hfront := dateGroups?_of_append hdate (by omega)
    unfold scanDigits at h ⊢
    rw [hdate] at h
    rw [hfront]
    exact h
  | none =>
    have hfront := dateGroups?_eq_none_of_append hdate
    unfold scanDigits at h ⊢
    rw [hdate] at h
    rw [hfront]
    exact scanNumber_of_append h hn

/-! ## Strings -/

/-- A closed string is the same whatever follows it. -/
theorem stringBody?_append {body : List Char} (h : stringBody? cs = some (body, n)) (later : List Char) :
    stringBody? (cs ++ later) = some (body, n) := by
  fun_induction stringBody? cs generalizing body n with
  | case1 => cases h
  | case2 rest => exact h
  | case3 c rest ih =>
    obtain ⟨⟨body', n'⟩, hrest, hpair⟩ := Option.map_eq_some_iff.1 h
    rw [List.cons_append, List.cons_append, stringBody?, ih hrest, Option.map_some, hpair]
  | case4 c rest hquote hescape ih =>
    obtain ⟨⟨body', n'⟩, hrest, hpair⟩ := Option.map_eq_some_iff.1 h
    rw [List.cons_append, stringBody?, ih hrest, Option.map_some, hpair]
    · exact hquote
    · intro d rest' hc hrest'
      cases rest with
      | nil => cases hrest
      | cons e rest => exact hescape e rest hc rfl

/-- A closed string is read to its closing quote, and alone it is the same. -/
theorem stringBody?_take {body : List Char} (h : stringBody? cs = some (body, n)) :
    0 < n ∧ n ≤ cs.length ∧ stringBody? (cs.take n) = some (body, n) := by
  fun_induction stringBody? cs generalizing body n with
  | case1 => cases h
  | case2 rest =>
    cases h
    exact ⟨Nat.one_pos, Nat.succ_le_succ (Nat.zero_le _), rfl⟩
  | case3 c rest ih =>
    obtain ⟨⟨body', n'⟩, hrest, hpair⟩ := Option.map_eq_some_iff.1 h
    cases hpair
    obtain ⟨_, hle, htake⟩ := ih hrest
    refine ⟨Nat.succ_pos _, Nat.add_le_add_right hle 2, ?_⟩
    rw [List.take_succ_cons, List.take_succ_cons, stringBody?, htake]
    rfl
  | case4 c rest hquote hescape ih =>
    obtain ⟨⟨body', n'⟩, hrest, hpair⟩ := Option.map_eq_some_iff.1 h
    cases hpair
    obtain ⟨_, hle, htake⟩ := ih hrest
    refine ⟨Nat.succ_pos _, Nat.succ_le_succ hle, ?_⟩
    rw [List.take_succ_cons, stringBody?, htake]
    · rfl
    · exact hquote
    · intro d rest' hc hrest'
      cases rest with
      | nil => cases hrest
      | cons e rest => exact hescape e rest hc rfl

theorem stringBody?_of_append {body : List Char} (h : stringBody? (front ++ later) = some (body, n))
    (hn : n ≤ front.length) : stringBody? front = some (body, n) := by
  obtain ⟨_, _, htake⟩ := stringBody?_take h
  rw [List.take_append_of_le_length hn] at htake
  have hfront := stringBody?_append htake (front.drop n)
  rw [List.take_append_drop] at hfront
  exact hfront

/-! ## Tokens -/

/-- The comparison that a character and an equals sign stand for. -/
def wide? : Char → Option Comparison
  | '>' => some .greaterOrEqual
  | '<' => some .lessOrEqual
  | '!' => some .notEqual
  | _ => none

/-- The token that a character stands for by itself. -/
def mark? : Char → Option Token
  | '>' => some (.comparison .greater)
  | '<' => some (.comparison .less)
  | '=' => some (.comparison .equal)
  | c => (Symbol.ofChar? c).map .symbol

/-- The ways in which a token is read from its first character and the text after it. -/
inductive Scans : Char → List Char → Token → Nat → Prop
  | string {rest : List Char} {body : List Char} {n : Nat} (h : stringBody? rest = some (body, n)) :
      Scans '"' rest (.string (String.ofList body)) (n + 1)
  | negative {rest : List Char} {t : Token} {n : Nat} (hdigits : leadingDigits rest ≠ [])
      (h : scanNumber true 1 rest = .ok (t, n)) : Scans '-' rest t n
  | digits {c : Char} {rest : List Char} {t : Token} {n : Nat} (hc : c.isDigit = true)
      (h : scanDigits (c :: rest) = .ok (t, n)) : Scans c rest t n
  | name {c : Char} {rest : List Char} (hc : isNameStart c = true) :
      Scans c rest (.ident (String.ofList (c :: rest.takeWhile isNamePart))) ((rest.takeWhile isNamePart).length + 1)
  | wide {c : Char} {rest : List Char} {comparison : Comparison} (hc : wide? c = some comparison) :
      Scans c ('=' :: rest) (.comparison comparison) 2
  /-- A comparison of two characters goes before one of its first alone. -/
  | mark {c : Char} {rest : List Char} {t : Token} (hc : mark? c = some t)
      (hrest : wide? c = none ∨ rest.head? ≠ some '=') : Scans c rest t 1

/-- Whether a character that follows a token may go on with it. -/
def goesOnWith : Token → Char → Bool
  | .ident _ => isNamePart
  | .int _ | .float _ | .date _ => isNumberPart
  | .comparison _ | .symbol _ => fun c => c == '='
  | .string _ => fun _ => false

theorem isBlank_of_goesOnWith (h : t.goesOnWith c = true) : isBlank c = false := by
  cases t with
  | ident _ => exact isBlank_of_isNamePart h
  | int _ | float _ | date _ =>
    simp only [goesOnWith, isNumberPart, Bool.or_eq_true, beq_iff_eq] at h
    rcases h with (h | rfl) | rfl
    · exact Date.isBlank_of_isDigit h
    · rfl
    · rfl
  | comparison _ | symbol _ =>
    rw [beq_iff_eq.1 h]
    rfl
  | string _ => cases h

/-- No token goes on with a blank. -/
theorem Ends.of_blank (h : ∀ c ∈ cs.head?, isBlank c = true) (t : Token) : Ends t.goesOnWith cs := by
  intro c hc
  refine Bool.eq_false_iff.2 fun hgoes => ?_
  have hblank : isBlank c = true := h c hc
  rw [isBlank_of_goesOnWith hgoes] at hblank
  cases hblank

theorem goesOnWith_of_scanNumber {negative : Bool} {signs : Nat} (h : scanNumber negative signs cs = .ok (t, n)) :
    t.goesOnWith = isNumberPart := by
  unfold scanNumber at h
  split at h
  · dsimp only at h
    split at h <;> cases h
    rfl
  · cases h
    rfl

theorem goesOnWith_of_scanDigits (h : scanDigits cs = .ok (t, n)) : t.goesOnWith = isNumberPart := by
  unfold scanDigits at h
  split at h
  · split at h <;> cases h
    rfl
  · exact goesOnWith_of_scanNumber h

theorem goesOnWith_of_mark? (h : mark? c = some t) : t.goesOnWith = fun c => c == '=' := by
  unfold mark? at h
  split at h
  · cases h
    rfl
  · cases h
    rfl
  · cases h
    rfl
  · obtain ⟨s, _, rfl⟩ := Option.map_eq_some_iff.1 h
    rfl

theorem eq_char_of_ofChar? {s : Symbol} (h : Symbol.ofChar? c = some s) : c = s.char := by
  unfold Symbol.ofChar? at h
  split at h <;> cases h <;> rfl

theorem isDigit_of_isNameStart (h : isNameStart c = true) : c.isDigit = false := by
  rw [isNameStart, Bool.or_eq_true, isAlpha_iff, beq_iff_eq] at h
  rw [Char.isDigit, Bool.and_eq_false_iff, decide_eq_false_iff_not, decide_eq_false_iff_not]
  right
  intro hle
  have hcode : c.toNat ≤ 57 := hle
  rcases h with h | rfl
  · omega
  · exact absurd hcode (by decide)

theorem head?_ne_of_forall (h : ∀ tail, rest = c :: tail → False) : rest.head? ≠ some c := by
  intro hhead
  obtain ⟨tail, htail⟩ := List.head?_eq_some_iff.1 hhead
  exact h tail htail

/-- A comparison of one character, if no equals sign follows. -/
theorem scan_comparison {comparison : Comparison} (hc : mark? c = some (.comparison comparison))
    (hrest : wide? c = none ∨ rest.head? ≠ some '=') : scan c rest = .ok (.comparison comparison, 1) := by
  unfold mark? at hc
  split at hc
  · cases hc
    have hhead := hrest.resolve_left nofun
    unfold scan
    split
    case h_2 => exact absurd rfl hhead
    case h_5 => rfl
    all_goals contradiction
  · cases hc
    have hhead := hrest.resolve_left nofun
    unfold scan
    split
    case h_3 => exact absurd rfl hhead
    case h_6 => rfl
    all_goals contradiction
  · cases hc
    rfl
  · obtain ⟨s, _, hs⟩ := Option.map_eq_some_iff.1 hc
    cases hs

/-- A symbol, if no comparison starts there. -/
theorem scan_symbol {s : Symbol} (hrest : s = .bang → rest.head? ≠ some '=') :
    scan s.char rest = .ok (.symbol s, 1) := by
  cases s
  case bang =>
    have hhead := hrest rfl
    show scan '!' rest = _
    unfold scan
    split
    case h_4 => exact absurd rfl hhead
    case h_9 => rfl
    all_goals contradiction
  all_goals rfl

theorem scan_of_scans (h : Scans c rest t n) : scan c rest = .ok (t, n) := by
  cases h with
  | string h => simp only [scan, h]
  | negative hdigits h => simp only [scan, if_neg hdigits, h]
  | digits hc h =>
    -- The last case of `scan` is that of no character that it names.
    unfold scan
    split
    case h_9 => rw [if_pos hc, h]
    all_goals exact absurd hc (by decide)
  | name hc =>
    have hdigit : ¬c.isDigit = true := by
      rw [isDigit_of_isNameStart hc]
      nofun
    unfold scan
    split
    case h_9 => simp only [if_neg hdigit, if_pos hc, List.length_cons]
    all_goals exact absurd hc (by decide)
  | wide hc =>
    unfold wide? at hc
    split at hc <;> cases hc <;> rfl
  | mark hc hrest =>
    cases hs : Symbol.ofChar? c with
    | some s =>
      cases eq_char_of_ofChar? hs
      have ht : t = .symbol s := by
        cases s <;> cases hc <;> rfl
      rw [ht]
      refine scan_symbol fun hbang => ?_
      cases hbang
      exact hrest.resolve_left nofun
    | none =>
      unfold mark? at hc
      split at hc
      · cases hc
        exact scan_comparison rfl hrest
      · cases hc
        exact scan_comparison rfl hrest
      · cases hc
        rfl
      · rw [hs] at hc
        cases hc

theorem scans_of_scan (h : scan c rest = .ok (t, n)) : Scans c rest t n := by
  unfold scan at h
  split at h
  · split at h
    · cases h
      exact .string ‹_›
    · cases h
  · cases h
    exact .wide rfl
  · cases h
    exact .wide rfl
  · cases h
    exact .wide rfl
  · rename_i hwide
    cases h
    exact .mark rfl (.inr (head?_ne_of_forall hwide))
  · rename_i hwide
    cases h
    exact .mark rfl (.inr (head?_ne_of_forall hwide))
  · cases h
    exact .mark rfl (.inl rfl)
  · split at h
    · cases h
    · exact .negative ‹_› h
  · rename_i hnotWide
    split at h
    · exact .digits ‹_› h
    split at h
    · cases h
      exact .name ‹_›
    split at h
    · rename_i s hs
      cases h
      cases eq_char_of_ofChar? hs
      have hc : mark? s.char = some (.symbol s) := by cases s <;> rfl
      refine .mark hc ?_
      cases s
      case bang => exact .inr (head?_ne_of_forall fun tail => hnotWide tail rfl)
      all_goals exact .inl rfl
    · cases h

/-- What is read at the start of a text. -/
theorem scan_eq_ok_iff : scan c rest = .ok (t, n) ↔ Scans c rest t n := ⟨scans_of_scan, scan_of_scans⟩

namespace Scans

/-- No token starts with a blank. -/
theorem isBlank_eq_false (h : Scans c rest t n) : isBlank c = false := by
  cases h with
  | string h => rfl
  | negative hdigits h => rfl
  | digits hc h => exact Date.isBlank_of_isDigit hc
  | name hc =>
    have hpart : isNamePart c = true := by
      rw [isNameStart, Bool.or_eq_true] at hc
      rw [isNamePart, Char.isAlphanum, Bool.or_eq_true, Bool.or_eq_true]
      exact hc.imp_left .inl
    exact isBlank_of_isNamePart hpart
  | wide hc =>
    unfold wide? at hc
    split at hc <;> first | rfl | cases hc
  | mark hc hrest =>
    unfold mark? at hc
    split at hc
    · rfl
    · rfl
    · rfl
    · obtain ⟨s, hs, _⟩ := Option.map_eq_some_iff.1 hc
      rw [eq_char_of_ofChar? hs]
      cases s <;> rfl

/-- A token takes its first character, and no more than there are. -/
theorem bounds (h : Scans c rest t n) : 0 < n ∧ n ≤ rest.length + 1 := by
  cases h with
  | string h =>
    obtain ⟨_, hle, _⟩ := stringBody?_take h
    exact ⟨Nat.succ_pos _, Nat.succ_le_succ hle⟩
  | negative hdigits h => exact scanNumber_bounds hdigits h
  | digits hc h => exact scanDigits_bounds hc h
  | name hc => exact ⟨Nat.succ_pos _, Nat.succ_le_succ (List.takeWhile_sublist _).length_le⟩
  | wide hc => exact ⟨Nat.two_pos, Nat.le_add_left _ _⟩
  | mark hc hrest => exact ⟨Nat.one_pos, Nat.le_add_left _ _⟩

/-- A token with which what follows does not go on is read as it is alone. -/
theorem append (h : Scans c rest t n) (hends : Ends t.goesOnWith later) : Scans c (rest ++ later) t n := by
  cases h with
  | string h => exact .string (stringBody?_append h later)
  | negative hdigits h =>
    rw [goesOnWith_of_scanNumber h] at hends
    rw [← (digits_append_of_ends rest hends).1] at hdigits
    rw [← scanNumber_append _ _ _ hends] at h
    exact .negative hdigits h
  | digits hc h =>
    rw [goesOnWith_of_scanDigits h] at hends
    rw [← scanDigits_append _ hends] at h
    exact .digits hc h
  | name hc =>
    have hwhile : (rest ++ later).takeWhile isNamePart = rest.takeWhile isNamePart :=
      (takeWhile_append_of_ends rest hends).1
    rw [← hwhile]
    exact .name hc
  | wide hc => exact .wide hc
  | mark hc hrest =>
    rw [goesOnWith_of_mark? hc] at hends
    refine .mark hc (hrest.imp_right fun hhead => ?_)
    cases rest with
    | nil => exact hends.head?_ne rfl
    | cons d rest => exact hhead

/-- A token that ends before some place does not depend on what is there. -/
theorem of_append (h : Scans c (rest ++ later) t n) (hn : n ≤ rest.length + 1) : Scans c rest t n := by
  generalize htext : rest ++ later = text at h
  cases h with
  | string h =>
    subst htext
    exact .string (stringBody?_of_append h (Nat.le_of_succ_le_succ hn))
  | negative hdigits h =>
    subst htext
    have hlength := length_scanNumber h
    have hsame : leadingDigits (rest ++ later) = leadingDigits rest := (digits_of_append (by omega)).1
    rw [hsame] at hdigits
    exact .negative hdigits (scanNumber_of_append h hn)
  | digits hc h =>
    subst htext
    have hfront : scanDigits (c :: rest) = .ok (t, n) := scanDigits_of_append h hn
    exact .digits hc hfront
  | name hc =>
    subst htext
    rw [(takeWhile_of_append (Nat.le_of_succ_le_succ hn)).1]
    exact .name hc
  | wide hc =>
    cases rest with
    | nil => exact absurd hn (by decide)
    | cons d rest =>
      cases htext
      exact .wide hc
  | mark hc hrest =>
    subst htext
    refine .mark hc (hrest.imp_right fun hhead => ?_)
    cases rest with
    | nil => nofun
    | cons d rest => exact hhead

end Scans

/-! ## Spelling -/

/-- Texts that are a token as a whole. -/
inductive Spells (t : Token) : List Char → Prop
  | intro {c : Char} {rest : List Char} (h : Scans c rest t (rest.length + 1)) : Spells t (c :: rest)

/-- What a token was read from spells it. -/
theorem spells_take (h : Scans c rest t n) : Spells t ((c :: rest).take n) := by
  obtain ⟨hpos, hle⟩ := h.bounds
  obtain ⟨m, rfl⟩ := Nat.exists_eq_add_one_of_ne_zero (Nat.ne_of_gt hpos)
  have hlength : (rest.take m).length = m := List.length_take_of_le (Nat.le_of_succ_le_succ hle)
  rw [List.take_succ_cons]
  rw [← List.take_append_drop m rest] at h
  have halone : Scans c (rest.take m) t (m + 1) := h.of_append (Nat.succ_le_succ (Nat.le_of_eq hlength.symm))
  refine .intro ?_
  rw [hlength]
  exact halone

end TreeQuery.Token
