/-!
# Splitting texts

Cutting a text at a separator. What is cut apart is put together again by the separator
(`append_of_splitFirst?`, `splitAll_append`).
-/

namespace TreeQuery.Text

/-- The text before the first separator and the text after it. -/
def splitFirst? (separator : Char) : List Char → Option (List Char × List Char)
  | [] => none
  | c :: rest =>
    if c = separator then some ([], rest)
    else (splitFirst? separator rest).map fun (before, after) => (c :: before, after)

/-- All texts between separators, of which there is one more than separators. -/
def splitAll (separator : Char) : List Char → List (List Char)
  | [] => [[]]
  | c :: rest =>
    if c = separator then [] :: splitAll separator rest
    else
      match splitAll separator rest with
      | [] => [[c]]
      | part :: parts => (c :: part) :: parts

theorem splitFirst?_append {separator : Char} {before : List Char} (after : List Char) (h : separator ∉ before) :
    splitFirst? separator (before ++ separator :: after) = some (before, after) := by
  induction before with
  | nil => simp [splitFirst?]
  | cons c before ih =>
    simp only [List.mem_cons, not_or] at h
    simp [splitFirst?, Ne.symm h.1, ih h.2]

theorem append_of_splitFirst? {separator : Char} {cs before after : List Char}
    (h : splitFirst? separator cs = some (before, after)) :
    cs = before ++ separator :: after ∧ separator ∉ before := by
  induction cs generalizing before after with
  | nil => cases h
  | cons c rest ih =>
    by_cases hc : c = separator
    · subst hc
      simp only [splitFirst?, if_pos] at h
      cases h
      exact ⟨rfl, List.not_mem_nil⟩
    · simp only [splitFirst?, if_neg hc, Option.map_eq_some_iff] at h
      obtain ⟨⟨b, a⟩, hba, heq⟩ := h
      cases heq
      obtain ⟨hrest, hb⟩ := ih hba
      exact ⟨by rw [hrest]; rfl, by simp [Ne.symm hc, hb]⟩

theorem splitFirst?_eq_none {separator : Char} {cs : List Char} : splitFirst? separator cs = none ↔ separator ∉ cs := by
  induction cs with
  | nil => simp [splitFirst?]
  | cons c rest ih =>
    by_cases hc : c = separator
    · simp [splitFirst?, hc]
    · simp [splitFirst?, hc, Ne.symm hc, ih]

theorem splitAll_of_not_mem {separator : Char} {cs : List Char} (h : separator ∉ cs) :
    splitAll separator cs = [cs] := by
  induction cs with
  | nil => rfl
  | cons c rest ih =>
    simp only [List.mem_cons, not_or] at h
    simp [splitAll, Ne.symm h.1, ih h.2]

theorem splitAll_append {separator : Char} {part : List Char} (rest : List Char) (h : separator ∉ part) :
    splitAll separator (part ++ separator :: rest) = part :: splitAll separator rest := by
  induction part with
  | nil => simp [splitAll]
  | cons c part ih =>
    simp only [List.mem_cons, not_or] at h
    simp [splitAll, Ne.symm h.1, ih h.2]

end TreeQuery.Text
