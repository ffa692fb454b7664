/-!
# Blanks

The characters with the Unicode property `White_Space`, and cutting them off the ends of a text.

- cutting blanks leaves a text that starts with none (`head_trimStart`), and what is cut is blank
  (`takeWhile_append_trimStart`);
- every character that core calls whitespace is a blank (`isBlank_of_isWhitespace`).
-/

namespace TreeQuery.Text

/-- The characters with the Unicode property `White_Space`. -/
def isBlank (c : Char) : Bool :=
  let n := c.toNat
  (0x09 ≤ n && n ≤ 0x0d) || n == 0x20 || n == 0x85 || n == 0xa0 || n == 0x1680 || (0x2000 ≤ n && n ≤ 0x200a) ||
    n == 0x2028 || n == 0x2029 || n == 0x202f || n == 0x205f || n == 0x3000

/-- A text without its leading blanks. -/
def trimStart (cs : List Char) : List Char := cs.dropWhile isBlank

/-- A text without its trailing blanks. -/
def trimEnd (cs : List Char) : List Char := (trimStart cs.reverse).reverse

/-- A text without the blanks at both ends. -/
def trim (cs : List Char) : List Char := trimEnd (trimStart cs)

/-- Cutting leading blanks loses nothing but blanks. -/
theorem takeWhile_append_trimStart (cs : List Char) : cs.takeWhile isBlank ++ trimStart cs = cs :=
  List.takeWhile_append_dropWhile

/-- A cut text starts with no blank. -/
theorem head_trimStart {cs : List Char} {c : Char} {r : List Char} (h : trimStart cs = c :: r) : isBlank c = false := by
  induction cs with
  | nil => simp [trimStart] at h
  | cons d ds ih =>
    unfold trimStart at h ih
    by_cases hd : isBlank d
    · rw [List.dropWhile_cons_of_pos hd] at h; exact ih h
    · rw [List.dropWhile_cons_of_neg hd] at h
      cases h
      simpa using hd

/-- Every whitespace character of ASCII is a blank. -/
theorem isBlank_of_isWhitespace {c : Char} (h : c.isWhitespace = true) : isBlank c = true := by
  simp only [Char.isWhitespace, Bool.or_eq_true, decide_eq_true_eq] at h
  rcases h with ((rfl | rfl) | rfl) | rfl <;> decide

end TreeQuery.Text
