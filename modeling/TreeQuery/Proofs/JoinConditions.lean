import Mathlib.Data.List.TakeWhile
import TreeQuery.Proofs.Outcome
import TreeQuery.Registry.JoinCondition

/-!
# Join conditions and their orientation

A join condition may be written in either order and with blanks anywhere between its names, and it always tells which
column is the parent's (`joinColumns_oriented`).

- Cutting the blanks off a text leaves the one text without blanks at its ends that has been padded with them
  (`trim_eq_iff`).
- A side of an equation is read as the column that it spells (`TableColumn.ofChars_trim_eq_ok`), and a text as the
  equation that it spells (`JoinCondition.ofText_eq_ok`).
-/

namespace TreeQuery

open Outcome

/-! ## Padding -/

namespace Text

/-- Whether a text has no blank at its ends. -/
def Trimmed (cs : List Char) : Prop :=
  (∀ c ∈ cs.head?, isBlank c = false) ∧ ∀ c ∈ cs.getLast?, isBlank c = false

/-- Whether a text is another one with blanks around it. -/
def Padded (word text : List Char) : Prop :=
  ∃ before after, (∀ c ∈ before, isBlank c = true) ∧ (∀ c ∈ after, isBlank c = true) ∧ text = before ++ (word ++ after)

variable {word text cs : List Char}

theorem trimStart_append {gap : List Char} (hgap : ∀ c ∈ gap, isBlank c = true) (cs : List Char) :
    trimStart (gap ++ cs) = trimStart cs := List.dropWhile_append_of_pos hgap

theorem trimStart_of_head (h : ∀ c ∈ cs.head?, isBlank c = false) : trimStart cs = cs := by
  cases cs with
  | nil => rfl
  | cons c cs =>
    have hc : ¬isBlank c = true := by
      rw [h c rfl]
      nofun
    exact List.dropWhile_cons_of_neg hc

theorem trimEnd_append {gap : List Char} (hgap : ∀ c ∈ gap, isBlank c = true) (cs : List Char) :
    trimEnd (cs ++ gap) = trimEnd cs := by
  have hreverse : ∀ c ∈ gap.reverse, isBlank c = true := fun c hc => hgap c (List.mem_reverse.1 hc)
  rw [trimEnd, List.reverse_append, trimStart_append hreverse, trimEnd]

theorem trimEnd_of_getLast (h : ∀ c ∈ cs.getLast?, isBlank c = false) : trimEnd cs = cs := by
  rw [← List.head?_reverse] at h
  rw [trimEnd, trimStart_of_head h, List.reverse_reverse]

/-- Texts without blanks at their ends may stand at the ends of a text. -/
theorem Trimmed.append {first last : List Char} (hfirst : Trimmed first) (hlast : Trimmed last) (hne : first ≠ [])
    (hne' : last ≠ []) (middle : List Char) : Trimmed (first ++ (middle ++ last)) := by
  refine ⟨?_, ?_⟩
  · obtain ⟨c, cs, rfl⟩ := List.exists_cons_of_ne_nil hne
    exact hfirst.1
  · have hend : (first ++ (middle ++ last)).getLast? = last.getLast? := by
      rw [← List.append_assoc, List.getLast?_append, List.getLast?_eq_some_getLast hne']
      rfl
    rw [hend]
    exact hlast.2

/-- Cutting off trailing blanks leaves the start of a text as it is. -/
theorem exists_eq_trimEnd_append (cs : List Char) :
    ∃ after, (∀ c ∈ after, isBlank c = true) ∧ cs = trimEnd cs ++ after := by
  refine ⟨(cs.reverse.takeWhile isBlank).reverse, fun c hc => List.mem_takeWhile_imp (List.mem_reverse.1 hc), ?_⟩
  rw [trimEnd, ← List.reverse_append, takeWhile_append_trimStart, List.reverse_reverse]

theorem head?_trimStart (cs : List Char) : ∀ c ∈ (trimStart cs).head?, isBlank c = false := by
  intro c hc
  obtain ⟨rest, hrest⟩ := List.head?_eq_some_iff.1 hc
  exact head_trimStart hrest

theorem trimmed_trim (cs : List Char) : Trimmed (trim cs) := by
  constructor
  · obtain ⟨after, _, hafter⟩ := exists_eq_trimEnd_append (trimStart cs)
    intro c hc
    have hhead : (trimEnd (trimStart cs)).head? = some c := hc
    refine head?_trimStart cs c ?_
    rw [hafter, List.head?_append, hhead]
    rfl
  · intro c hc
    rw [trim, trimEnd, List.getLast?_reverse] at hc
    exact head?_trimStart _ c hc

theorem padded_trim (cs : List Char) : Padded (trim cs) cs := by
  obtain ⟨after, hafter, hcs⟩ := exists_eq_trimEnd_append (trimStart cs)
  refine ⟨cs.takeWhile isBlank, after, fun c hc => List.mem_takeWhile_imp hc, hafter, ?_⟩
  rw [trim, ← hcs, takeWhile_append_trimStart]

theorem trim_of_padded (hword : Trimmed word) (h : Padded word text) : trim text = word := by
  obtain ⟨before, after, hbefore, hafter, rfl⟩ := h
  rw [trim, trimStart_append hbefore]
  cases word with
  | nil =>
    have hnone : trimStart after = [] := by
      rw [← List.append_nil after, trimStart_append hafter]
      rfl
    rw [List.nil_append, hnone]
    rfl
  | cons c cs =>
    have hstart : trimStart (c :: cs ++ after) = c :: cs ++ after := trimStart_of_head hword.1
    rw [hstart, trimEnd_append hafter, trimEnd_of_getLast hword.2]

/-- Cutting blanks off undoes padding with them, and nothing else. -/
theorem trim_eq_iff : trim text = word ↔ Trimmed word ∧ Padded word text := by
  refine ⟨?_, fun h => trim_of_padded h.1 h.2⟩
  rintro rfl
  exact ⟨trimmed_trim text, padded_trim text⟩

theorem Padded.append_left {gap : List Char} (hgap : ∀ c ∈ gap, isBlank c = true) (h : Padded word text) :
    Padded word (gap ++ text) := by
  obtain ⟨before, after, hbefore, hafter, rfl⟩ := h
  exact ⟨gap ++ before, after, List.forall_mem_append.2 ⟨hgap, hbefore⟩, hafter, (List.append_assoc _ _ _).symm⟩

theorem Padded.append_right {gap : List Char} (hgap : ∀ c ∈ gap, isBlank c = true) (h : Padded word text) :
    Padded word (text ++ gap) := by
  obtain ⟨before, after, hbefore, hafter, rfl⟩ := h
  exact ⟨before, after ++ gap, hbefore, List.forall_mem_append.2 ⟨hafter, hgap⟩, by simp only [List.append_assoc]⟩

/-- A character that is no blank stands in a padded text exactly if it stands in what is padded. -/
theorem Padded.mem_iff {c : Char} (hc : isBlank c = false) (h : Padded word text) : c ∈ text ↔ c ∈ word := by
  obtain ⟨before, after, hbefore, hafter, rfl⟩ := h
  have hnot {gap : List Char} (hgap : ∀ c ∈ gap, isBlank c = true) : c ∉ gap := fun hmem => by
    rw [hgap c hmem] at hc
    cases hc
  simp only [List.mem_append, hnot hbefore, hnot hafter, or_false, false_or]

theorem trim_ne_nil {c : Char} (hmem : c ∈ cs) (hc : isBlank c = false) : trim cs ≠ [] :=
  List.ne_nil_of_mem (((padded_trim cs).mem_iff hc).1 hmem)

end Text

/-! ## Columns -/

open Text

namespace TableColumn

/-- Whether a side of an equation is the column of a table, with blanks around either name. -/
def Spells (c : TableColumn) (side : List Char) : Prop :=
  ∃ table column, Padded c.table.toList table ∧ Padded c.column.toList column ∧ side = table ++ '.' :: column

/-- Whether a column can be spelled: its names are not empty and have no blanks at their ends, and the name of the table
has no point. -/
structure Legible (c : TableColumn) : Prop where
  table_ne : c.table ≠ ""
  column_ne : c.column ≠ ""
  table_trimmed : Trimmed c.table.toList
  column_trimmed : Trimmed c.column.toList
  point : '.' ∉ c.table.toList

variable {c : TableColumn} {side : List Char}

theorem ofChars_eq_ok : ofChars side = .ok c ↔ ∃ table column, splitFirst? '.' side = some (table, column) ∧
    table ≠ [] ∧ column ≠ [] ∧ c = ⟨String.ofList (trim table), String.ofList (trim column)⟩ := by
  unfold ofChars
  cases hsplit : splitFirst? '.' side with
  | none => simp
  | some parts =>
    obtain ⟨table, column⟩ := parts
    simp only [Option.some.injEq, Prod.mk.injEq, and_assoc, exists_and_left, exists_eq_left']
    cases table <;> cases column <;> simp [eq_comm]

theorem spells_of_ofChars (h : ofChars (trim side) = .ok c) : c.Legible ∧ c.Spells side := by
  obtain ⟨table, column, hsplit, htable, hcolumn, rfl⟩ := ofChars_eq_ok.1 h
  obtain ⟨hside, hpoint⟩ := append_of_splitFirst? hsplit
  obtain ⟨hhead, hlast⟩ := trimmed_trim side
  obtain ⟨before, after, hbefore, hafter, hpadded⟩ := padded_trim side
  -- The ends of a side are those of its table and of its column, so neither of these is all blank.
  have htrimTable : trim table ≠ [] := by
    refine trim_ne_nil (List.head_mem htable) (hhead _ ?_)
    rw [hside, List.head?_append, List.head?_eq_some_head htable]
    rfl
  have htrimColumn : trim column ≠ [] := by
    refine trim_ne_nil (List.getLast_mem hcolumn) (hlast _ ?_)
    rw [hside, List.getLast?_append, List.getLast?_cons, List.getLast?_eq_some_getLast hcolumn]
    rfl
  have hnoPoint : '.' ∉ trim table := fun hmem => hpoint (((padded_trim table).mem_iff rfl).2 hmem)
  constructor
  · constructor <;> simp only [ne_eq, String.toList_ofList, String.ofList_eq_empty_iff]
    · exact htrimTable
    · exact htrimColumn
    · exact trimmed_trim table
    · exact trimmed_trim column
    · exact hnoPoint
  · refine ⟨before ++ table, column ++ after, ?_, ?_, ?_⟩
    · rw [String.toList_ofList]
      exact (padded_trim table).append_left hbefore
    · rw [String.toList_ofList]
      exact (padded_trim column).append_right hafter
    · rw [hpadded, hside]
      simp only [List.append_assoc, List.cons_append]

theorem ofChars_of_spells (hc : c.Legible) (h : c.Spells side) : ofChars (trim side) = .ok c := by
  obtain ⟨_, _, ⟨outer, inner, houter, hinner, rfl⟩, ⟨inner', outer', hinner', houter', rfl⟩, rfl⟩ := h
  have hne : c.table.toList ≠ [] := fun h => hc.table_ne (String.toList_eq_nil_iff.1 h)
  have hne' : c.column.toList ≠ [] := fun h => hc.column_ne (String.toList_eq_nil_iff.1 h)
  have htable : Padded c.table.toList (c.table.toList ++ inner) := ⟨[], inner, nofun, hinner, rfl⟩
  have hcolumn : Padded c.column.toList (inner' ++ c.column.toList) :=
    ⟨inner', [], hinner', nofun, by rw [List.append_nil]⟩
  have hpoint : '.' ∉ c.table.toList ++ inner := fun hmem => hc.point ((htable.mem_iff rfl).1 hmem)
  have hside : trim (outer ++ (c.table.toList ++ inner) ++ '.' :: (inner' ++ (c.column.toList ++ outer'))) =
      c.table.toList ++ inner ++ '.' :: (inner' ++ c.column.toList) := by
    have htrimmed := hc.table_trimmed.append hc.column_trimmed hne hne' (inner ++ '.' :: inner')
    simp only [List.append_assoc, List.cons_append] at htrimmed ⊢
    exact trim_eq_iff.2 ⟨htrimmed, outer, outer', houter, houter', by
      simp only [List.append_assoc, List.cons_append]⟩
  rw [hside]
  refine ofChars_eq_ok.2 ⟨_, _, splitFirst?_append _ hpoint, List.append_ne_nil_of_left_ne_nil hne _,
    List.append_ne_nil_of_right_ne_nil _ hne', ?_⟩
  rw [trim_eq_iff.2 ⟨hc.table_trimmed, htable⟩, trim_eq_iff.2 ⟨hc.column_trimmed, hcolumn⟩, String.ofList_toList,
    String.ofList_toList]

/-- A side of an equation is read as the column that it spells. -/
theorem ofChars_trim_eq_ok : ofChars (trim side) = .ok c ↔ c.Legible ∧ c.Spells side :=
  ⟨spells_of_ofChars, fun h => ofChars_of_spells h.1 h.2⟩

/-- A character that is no blank and no point stands in a side exactly if it stands in one of the names. -/
theorem Spells.mem_iff {d : Char} (hblank : isBlank d = false) (hpoint : d ≠ '.') (h : c.Spells side) :
    d ∈ side ↔ d ∈ c.table.toList ∨ d ∈ c.column.toList := by
  obtain ⟨table, column, htable, hcolumn, rfl⟩ := h
  rw [List.mem_append, List.mem_cons, htable.mem_iff hblank, hcolumn.mem_iff hblank]
  simp only [hpoint, false_or]

end TableColumn

/-! ## Equations -/

namespace JoinCondition

/-- Whether a text is the equation of two columns, with blanks around any name. -/
def Spells (c : JoinCondition) (text : String) : Prop :=
  ∃ left right, c.left.Spells left ∧ c.right.Spells right ∧ text.toList = left ++ '=' :: right

/-- Whether an equation can be spelled: its columns can, and in the left one there is no equals sign. -/
structure Legible (c : JoinCondition) : Prop where
  left : c.left.Legible
  right : c.right.Legible
  equals : '=' ∉ c.left.table.toList ∧ '=' ∉ c.left.column.toList

variable {c : JoinCondition} {text : String}

/-- A text is read as the equation that it spells. -/
theorem ofText_eq_ok : ofText text = .ok c ↔ c.Legible ∧ c.Spells text := by
  obtain ⟨left, right⟩ := c
  constructor
  · intro h
    unfold ofText at h
    split at h
    · rename_i before after hsplit
      obtain ⟨htext, hequals⟩ := append_of_splitFirst? hsplit
      obtain ⟨left', hleft, h⟩ := bind_eq_ok.1 h
      obtain ⟨right', hright, h⟩ := bind_eq_ok.1 h
      cases h
      obtain ⟨hlegible, hspells⟩ := TableColumn.ofChars_trim_eq_ok.1 hleft
      obtain ⟨hlegible', hspells'⟩ := TableColumn.ofChars_trim_eq_ok.1 hright
      rw [hspells.mem_iff rfl (by decide), not_or] at hequals
      exact ⟨⟨hlegible, hlegible', hequals⟩, before, after, hspells, hspells', htext⟩
    · cases h
  · rintro ⟨⟨hlegible, hlegible', hequals⟩, before, after, hspells, hspells', htext⟩
    have hnone : '=' ∉ before := by
      rw [hspells.mem_iff rfl (by decide), not_or]
      exact hequals
    have hleft := TableColumn.ofChars_of_spells hlegible hspells
    have hright := TableColumn.ofChars_of_spells hlegible' hspells'
    unfold ofText
    rw [htext, splitFirst?_append after hnone]
    simp only [hleft, hright]
    rfl

/-- The parent's column stands left if its table does, and right only if its table does not stand left as well. -/
theorem columns?_eq_some {parent target a b : String} : c.columns? parent target = some (a, b) ↔
    c = ⟨⟨parent, a⟩, ⟨target, b⟩⟩ ∨ parent ≠ target ∧ c = ⟨⟨target, b⟩, ⟨parent, a⟩⟩ := by
  obtain ⟨⟨leftTable, leftColumn⟩, ⟨rightTable, rightColumn⟩⟩ := c
  unfold columns?
  split
  · rename_i hleft
    obtain ⟨rfl, rfl⟩ : leftTable = parent ∧ rightTable = target := hleft
    simp only [Option.some.injEq, Prod.mk.injEq, mk.injEq, TableColumn.mk.injEq, true_and]
    exact ⟨.inl, fun h => h.resolve_right fun h => h.1 h.2.1.1⟩
  · rename_i hleft
    have hnot : ¬(leftTable = parent ∧ rightTable = target) := hleft
    split
    · rename_i hright
      obtain ⟨rfl, rfl⟩ : rightTable = parent ∧ leftTable = target := hright
      have hne : rightTable ≠ leftTable := fun h => hnot ⟨h.symm, h⟩
      simp only [Option.some.injEq, Prod.mk.injEq, mk.injEq, TableColumn.mk.injEq, true_and, hne, ne_eq,
        not_false_eq_true, hne.symm, false_and, false_or, and_comm]
    · rename_i hright
      have hnot' : ¬(rightTable = parent ∧ leftTable = target) := hright
      simp only [mk.injEq, TableColumn.mk.injEq, reduceCtorEq, false_iff]
      rintro (⟨⟨rfl, rfl⟩, rfl, rfl⟩ | ⟨_, ⟨rfl, rfl⟩, rfl, rfl⟩)
      · exact hnot ⟨rfl, rfl⟩
      · exact hnot' ⟨rfl, rfl⟩

end JoinCondition

theorem joinColumns_eq_ok {text parent target : String} {columns : String × String} :
    joinColumns text parent target = .ok columns ↔
      ∃ c, JoinCondition.ofText text = .ok c ∧ c.columns? parent target = some columns := by
  unfold joinColumns
  rw [bind_eq_ok]
  refine exists_congr fun c => and_congr_right fun _ => ?_
  cases c.columns? parent target with
  | none => simp
  | some found => simp

/-- **Join conditions are oriented by their tables.** A condition tells the columns `a` of the parent and `b` of the
target exactly if it spells that the parent's `a` is the target's `b`, with blanks anywhere around the names, or that
the target's `b` is the parent's `a`, where these are different tables. -/
theorem joinColumns_oriented (text parent target a b : String) : joinColumns text parent target = .ok (a, b) ↔
    (JoinCondition.mk ⟨parent, a⟩ ⟨target, b⟩).Legible ∧ (JoinCondition.mk ⟨parent, a⟩ ⟨target, b⟩).Spells text ∨
      parent ≠ target ∧ (JoinCondition.mk ⟨target, b⟩ ⟨parent, a⟩).Legible ∧
        (JoinCondition.mk ⟨target, b⟩ ⟨parent, a⟩).Spells text := by
  simp only [joinColumns_eq_ok, JoinCondition.columns?_eq_some, JoinCondition.ofText_eq_ok]
  constructor
  · rintro ⟨_, hc, rfl | ⟨hne, rfl⟩⟩
    · exact .inl hc
    · exact .inr ⟨hne, hc⟩
  · rintro (hc | ⟨hne, hc⟩)
    · exact ⟨_, hc, .inl rfl⟩
    · exact ⟨_, hc, .inr ⟨hne, rfl⟩⟩

example : joinColumns " step . todo_id=todo.id\t" "todo" "step" = .ok ("id", "todo_id") := rfl

end TreeQuery
