import Mathlib.Data.List.Forall2
import Mathlib.Logic.ExistsUnique
import TreeQuery.Proofs.Compilation
import TreeQuery.Proofs.Resolution

/-!
# Windows of row numbers

A paged relation keeps the rows of each key whose numbers are in a window. Its bounds are sums of counts that are cut
off at the largest count, and then at the largest literal; still the numbers that pass are those that are meant when one
counts without bounds (`keepsWindow_of_attachments`). So the pages of one size follow each other without a gap and
without an overlap.

- The bounds are cut off where no row number is (`literalCount_lt_iff`, `le_literalCount_saturatingSum_iff`).
- A level that is not paged has no bounds, and its window has none either (`holds_windowConditions_iff`).
- All pages of a relation number the rows of one select (`exists_select_page`), and each number is on one of them
  (`existsUnique_page`).
-/

namespace TreeQuery

open Outcome Sql Number

/-! ## Comparing row numbers -/

/-- Whether a comparison holds of two integers. -/
def Comparison.Holds : Comparison → Int → Int → Prop
  | .equal, a, b => a = b
  | .notEqual, a, b => a ≠ b
  | .greater, a, b => a > b
  | .greaterOrEqual, a, b => a ≥ b
  | .less, a, b => a < b
  | .lessOrEqual, a, b => a ≤ b

namespace Sql.Expr

/-- The integer that an expression is in a row, where some columns of some tables are known to be integers. -/
def integer? (row : String → String → Option Int) : Expr → Option Int
  | .column table name => row table name
  | .int n => some n.toInt
  | _ => none

/-- Whether an expression is a comparison of integers that holds in a row. -/
def Holds (row : String → String → Option Int) : Expr → Prop
  | .binary left (.compare c) right =>
    ∃ a b, left.integer? row = some a ∧ right.integer? row = some b ∧ c.Holds a b
  | _ => False

end Sql.Expr

/-- A row of which no more is known than its number among the rows with its key. -/
def numbered (rows : String) (number : Nat) (table name : String) : Option Int :=
  if table = rows ∧ name = rowNumberColumn then some number else none

/-- Whether a number is in a window, as counted without bounds: it is after the offset, and not after the end if there
is a limit. A limit of zero is none. -/
def InWindow (limit offset : Option UInt64) (number : Nat) : Prop :=
  (offset.getD 0).toNat < number ∧
    ∀ count, limit = some count → count ≠ 0 → number ≤ (offset.getD 0).toNat + count.toNat

section Bounds

variable {number : Nat}

theorem toInt_literalCount (n : Nat) : (literalCount n).toInt = (min n (int64Bound - 1) : Nat) := by
  have hbound : min n (int64Bound - 1) < 2 ^ 63 := Nat.lt_of_le_of_lt (Nat.min_le_right _ _) (by decide)
  exact Int64.toInt_ofNat_of_lt hbound

/-- Cutting off an offset at the largest literal drops no number. -/
theorem literalCount_lt_iff (h : number < int64Bound) (n : Nat) : (literalCount n).toInt < number ↔ n < number := by
  rw [toInt_literalCount]
  omega

/-- Cutting off the end of a window, first at the largest count and then at the largest literal, drops no number. -/
theorem le_literalCount_saturatingSum_iff (h : number < int64Bound) (a b : UInt64) :
    number ≤ (literalCount (saturatingSum a b)).toInt ↔ number ≤ a.toNat + b.toNat := by
  have hsize : int64Bound ≤ UInt64.size - 1 := by decide
  rw [toInt_literalCount, saturatingSum]
  omega

variable (rows : String) {limit offset : Option UInt64}

theorem holds_column_int (c : Comparison) (n : Int64) :
    (Expr.binary (.column rows rowNumberColumn) (.compare c) (.int n)).Holds (numbered rows number) ↔
      c.Holds number n.toInt := by
  simp [Expr.Holds, Expr.integer?, numbered]

theorem filter_pos_eq_some {count : UInt64} : limit.filter (0 < ·) = some count ↔ limit = some count ∧ count ≠ 0 := by
  rw [Option.filter_eq_some_iff, decide_eq_true_eq, UInt64.pos_iff_ne_zero]

/-- The tests of a window compare row numbers with counts. -/
theorem exists_of_mem_windowConditions {e : Expr} (h : e ∈ windowConditions rows limit offset) :
    ∃ comparison count,
      e = .binary (.column rows rowNumberColumn) (.compare comparison) (.int (literalCount count)) := by
  unfold windowConditions at h
  split at h
  · simp only at h
    split at h
    · rcases List.mem_pair.1 h with rfl | rfl
      · exact ⟨_, _, rfl⟩
      · exact ⟨_, _, rfl⟩
    · exact ⟨_, _, List.mem_singleton.1 h⟩
  · cases h

/-- The window of a level that is not paged has no bounds. -/
theorem inWindow_of_not_isPaged (hpaged : isPaged limit offset = false) (hpos : 1 ≤ number) :
    InWindow limit offset number := by
  obtain ⟨hlimit, hoffset⟩ := Bool.or_eq_false_iff.1 hpaged
  have hzero : offset.getD 0 = 0 := by
    cases offset with
    | none => rfl
    | some skipped => exact UInt64.le_zero_iff.1 (UInt64.not_lt.1 (of_decide_eq_false hoffset))
  refine ⟨by rw [hzero]; exact hpos, fun count hcount hne => ?_⟩
  subst hcount
  exact absurd (UInt64.pos_iff_ne_zero.2 hne) (of_decide_eq_false hlimit)

/-- The tests of a window hold of the numbers in it. -/
theorem holds_windowConditions_iff (hpos : 1 ≤ number) (h : number < int64Bound) :
    (∀ c ∈ windowConditions rows limit offset, c.Holds (numbered rows number)) ↔ InWindow limit offset number := by
  cases hpaged : isPaged limit offset with
  | false =>
    have hnone : windowConditions rows limit offset = [] := if_neg (by rw [hpaged]; exact Bool.false_ne_true)
    rw [hnone]
    exact iff_of_true (fun _ hc => absurd hc List.not_mem_nil) (inWindow_of_not_isPaged hpaged hpos)
  | true =>
    have habove := literalCount_lt_iff h (offset.getD 0).toNat
    unfold windowConditions
    rw [if_pos hpaged]
    cases hcount : limit.filter (0 < ·) with
    | none =>
      have hunlimited (count : UInt64) (hlimit : limit = some count) (hne : count ≠ 0) : False := by
        rw [filter_pos_eq_some.2 ⟨hlimit, hne⟩] at hcount
        cases hcount
      rw [List.forall_mem_singleton, holds_column_int]
      exact ⟨fun hnumber => ⟨habove.1 hnumber, fun count hlimit hne => (hunlimited count hlimit hne).elim⟩,
        fun hnumber => habove.2 hnumber.1⟩
    | some count =>
      obtain ⟨hlimit, hne⟩ := filter_pos_eq_some.1 hcount
      have hbelow := le_literalCount_saturatingSum_iff h (offset.getD 0) count
      rw [List.forall_mem_cons, List.forall_mem_singleton, holds_column_int, holds_column_int]
      refine and_congr habove (hbelow.trans ⟨fun hnumber count' hcount' _ => ?_, fun hnumber => ?_⟩)
      · cases hlimit.symm.trans hcount'
        exact hnumber
      · exact hnumber count hlimit hne

end Bounds

/-! ## Pages -/

/-- Pages of one size cover the positive numbers, each of them once. -/
theorem existsUnique_page {size number : Nat} (hsize : 0 < size) (hnumber : 1 ≤ number) :
    ∃! k, k * size < number ∧ number ≤ k * size + size := by
  refine ⟨(number - 1) / size, ?_, ?_⟩
  · have hfloor := Nat.div_mul_le_self (number - 1) size
    have hceil := Nat.lt_div_mul_add (a := number - 1) hsize
    exact ⟨by omega, by omega⟩
  · rintro k ⟨hfloor, hceil⟩
    have hsucc : (k + 1) * size = k * size + size := Nat.succ_mul k size
    exact (Nat.div_eq_of_lt_le (by omega) (by omega)).symm

namespace JoinedLevel

/-- A relation with a page in place of its own: as many rows as a page has, after those of the pages before. -/
def page (j : JoinedLevel PlannedLevel) (size : UInt64) (k : Nat) : JoinedLevel PlannedLevel :=
  { j with level := { j.level with limit := some size, offset := some (UInt64.ofNat (k * size.toNat)) } }

theorem aliasCount_page (j : JoinedLevel PlannedLevel) (size : UInt64) (k : Nat) :
    (j.page size k).level.aliasCount = j.level.aliasCount := by
  obtain ⟨_, _, _, ⟨_, _, _, _, _, _, _, _⟩⟩ := j
  rfl

end JoinedLevel

/-! ## Relations -/

/-- A select shows a column as the key of its rows, and the number of each row among those with its key. -/
def Sql.Select.NumbersBy (s : Select) (column : String) : Prop :=
  ∃ table order, (.column table column, some keyColumn) ∈ s.items ∧
    (.rowNumber [.column table column] order, some rowNumberColumn) ∈ s.items

namespace Attachment

/-- An attachment joins a derived table that folds the rows of another one. -/
def Folds (a : Attachment) (fold inner : Select) (rows : String) : Prop :=
  (∃ label, a.join.source = .derived fold label) ∧ fold.source = .derived inner rows

/-- Whether an attachment folds the row of a key with a certain number: all conditions on the row hold. -/
def Keeps (a : Attachment) (number : Nat) : Prop :=
  ∃ fold inner rows, a.Folds fold inner rows ∧ ∀ c ∈ fold.conditions, c.Holds (numbered rows number)

end Attachment

section Attachments

variable {entity : Entity} {table label rows array : String} {n number : Nat} {rel : Relationship} {kind : JoinKind}
  {level : PlannedLevel} {inner : Select}

theorem folds_attachment : (attachment table label rel kind level inner rows array).Folds
    (folded inner rows level.output level.limit level.offset) inner rows := ⟨⟨array, rfl⟩, rfl⟩

theorem Attachment.Folds.eq {fold inner' : Select} {rows' : String}
    (h : (attachment table label rel kind level inner rows array).Folds fold inner' rows') :
    fold = folded inner rows level.output level.limit level.offset ∧ inner' = inner ∧ rows' = rows := by
  obtain ⟨⟨label, hjoined⟩, hsource⟩ := h
  cases hjoined
  cases hsource
  exact ⟨rfl, rfl, rfl⟩

theorem keeps_attachment_iff (hpos : 1 ≤ number) (h : number < int64Bound) :
    (attachment table label rel kind level inner rows array).Keeps number ↔
      InWindow level.limit level.offset number := by
  rw [← holds_windowConditions_iff rows hpos h]
  constructor
  · rintro ⟨fold, inner', rows', hfolds, hconditions⟩
    obtain ⟨rfl, _, rfl⟩ := hfolds.eq
    exact hconditions
  · exact fun hconditions => ⟨_, inner, rows, folds_attachment, hconditions⟩

/-- A child level looks the same with every window of rows, if it has one. -/
theorem placed_child_congr {base : Select} {column : String} {order : List (Expr × SortOrder)}
    {limit offset limit' offset' : Option UInt64} (h : isPaged limit offset = isPaged limit' offset') :
    placed base (.child column) table order limit offset = placed base (.child column) table order limit' offset' := by
  simp only [placed, h]

/-- A child level compiles in one way with all pages of a size, and its rows are numbered for each key. -/
theorem exists_select_page {j : JoinedLevel PlannedLevel} {column : String} {s : Select}
    (h : j.level.select n (.child column) = .ok s) {size : UInt64} (hsize : size ≠ 0) :
    ∃ inner, inner.NumbersBy column ∧ ∀ k, (j.page size k).level.select n (.child column) = .ok inner := by
  obtain ⟨as, cs, has, hcs, _⟩ := PlannedLevel.select_eq_ok.1 h
  have hpaged (offset : Option UInt64) : isPaged (some size) offset = true := by
    simp [isPaged, UInt64.pos_iff_ne_zero, hsize]
  let base := levelBase j.level.entity j.level.output j.level.fields (tableAlias n) as cs (hasToMany j.level.relations)
  let order := levelOrder j.level.entity j.level.sort (tableAlias n)
  refine ⟨placed base (.child column) (tableAlias n) order (some size) none, ⟨tableAlias n, order, ?_⟩, fun k => ?_⟩
  · simp [placed, hpaged]
  · exact PlannedLevel.select_eq_ok.2 ⟨as, cs, has, hcs, placed_child_congr ((hpaged none).trans (hpaged _).symm)⟩

variable {joins : List (JoinedLevel PlannedLevel)} {relations : List Attachment}

/-- The relations of a level are attached one by one, each with its own table names. -/
theorem forall₂_attachments (h : attachments entity table n joins = .ok relations) :
    List.Forall₂ (fun j a => j.relationship.direction ≠ .manyToMany ∧ ∃ m inner,
      j.level.select m (.child j.relationship.childColumn) = .ok inner ∧
        a = attachment table j.label j.relationship j.join j.level inner (tableAlias (m + j.level.aliasCount))
          (tableAlias (m + j.level.aliasCount + 1))) joins relations := by
  induction joins generalizing n relations with
  | nil => cases h; exact .nil
  | cons j rest ih =>
    obtain ⟨label, rel, kind, level⟩ := j
    obtain ⟨hmany, inner, later, hinner, hlater, rfl⟩ := attachments_cons_eq_ok.1 h
    exact .cons ⟨hmany, n, inner, hinner, rfl⟩ (ih hlater)

/-- A relation is attached by itself if the level behind it compiles. -/
theorem attachments_singleton {j : JoinedLevel PlannedLevel} (hmany : j.relationship.direction ≠ .manyToMany)
    (h : j.level.select n (.child j.relationship.childColumn) = .ok inner) : attachments entity table n [j] =
      .ok [attachment table j.label j.relationship j.join j.level inner (tableAlias (n + j.level.aliasCount))
        (tableAlias (n + j.level.aliasCount + 1))] :=
  attachments_cons_eq_ok.2 ⟨hmany, inner, [], h, rfl, rfl⟩

/-- A page of a relation keeps the numbers of the page, as long as its offset is a count. -/
theorem inWindow_page {size : UInt64} (hsize : size ≠ 0) {k : Nat} (hk : k * size.toNat < UInt64.size) :
    InWindow (some size) (some (UInt64.ofNat (k * size.toNat))) number ↔
      k * size.toNat < number ∧ number ≤ k * size.toNat + size.toNat := by
  rw [InWindow, Option.getD_some, UInt64.toNat_ofNat_of_lt' hk]
  refine and_congr_right fun _ => ⟨fun h => h size rfl hsize, fun h count hcount _ => ?_⟩
  cases hcount
  exact h

end Attachments

/-- Whether an attachment keeps the window that its relation asks for. -/
structure KeepsWindow (j : JoinedLevel PlannedLevel) (a : Attachment) : Prop where
  unpaged : j.level.isPaged = false → ∀ fold inner rows, a.Folds fold inner rows → fold.conditions = []
  keeps_iff : ∀ number, 1 ≤ number → number < int64Bound →
    (a.Keeps number ↔ InWindow j.level.limit j.level.offset number)

/-- Whether the pages of one size of a relation fold the same rows, each number on one page. -/
def PagesFollow (entity : Entity) (table : String) (j : JoinedLevel PlannedLevel) (size : UInt64) : Prop :=
  ∃ m inner rows, ∃ pages : Nat → Attachment, inner.NumbersBy j.relationship.childColumn ∧
    (∀ k, attachments entity table m [j.page size k] = .ok [pages k] ∧ ∃ fold, (pages k).Folds fold inner rows) ∧
    ∀ number, 1 ≤ number → number < int64Bound → ∃! k, k * size.toNat < UInt64.size ∧ (pages k).Keeps number

section Attachments

variable {entity : Entity} {table : String} {n : Nat}

theorem pagesFollow {j : JoinedLevel PlannedLevel} (hmany : j.relationship.direction ≠ .manyToMany) {s : Select}
    (h : j.level.select n (.child j.relationship.childColumn) = .ok s) {size : UInt64} (hsize : size ≠ 0) :
    PagesFollow entity table j size := by
  obtain ⟨inner, hnumbers, hinner⟩ := exists_select_page h hsize
  let page (k : Nat) : Attachment := attachment table j.label j.relationship j.join (j.page size k).level inner
    (tableAlias (n + j.level.aliasCount)) (tableAlias (n + j.level.aliasCount + 1))
  have hpage (k : Nat) : attachments entity table n [j.page size k] = .ok [page k] := by
    have hattached : attachments entity table n [j.page size k] = .ok [attachment table j.label j.relationship j.join
        (j.page size k).level inner (tableAlias (n + (j.page size k).level.aliasCount))
        (tableAlias (n + (j.page size k).level.aliasCount + 1))] := attachments_singleton hmany (hinner k)
    rwa [j.aliasCount_page size k] at hattached
  refine ⟨n, inner, _, page, hnumbers, fun k => ⟨hpage k, _, folds_attachment⟩, fun number hpos hnumber => ?_⟩
  have hkeeps {k : Nat} (hfits : k * size.toNat < UInt64.size) :
      (page k).Keeps number ↔ k * size.toNat < number ∧ number ≤ k * size.toNat + size.toNat :=
    (keeps_attachment_iff hpos hnumber).trans (inWindow_page hsize hfits)
  have hbound : int64Bound < UInt64.size := by decide
  obtain ⟨k, hk, hunique⟩ := existsUnique_page (UInt64.pos_iff_ne_zero.2 hsize) hpos
  have hfits : k * size.toNat < UInt64.size := Nat.lt_trans hk.1 (Nat.lt_trans hnumber hbound)
  exact ⟨k, ⟨hfits, (hkeeps hfits).2 hk⟩, fun k' hk' => hunique k' ((hkeeps hk'.1).1 hk'.2)⟩

variable {joins : List (JoinedLevel PlannedLevel)} {relations : List Attachment}

/-- **Windows are exact.** A relation that is paged keeps, of the rows of each key, those whose numbers are in its
window; one that is not has no conditions on row numbers, and its window is all numbers. So the pages of a size, as far
as their offsets are counts, follow each other without a gap and without an overlap. -/
theorem keepsWindow_of_attachments (h : attachments entity table n joins = .ok relations) :
    List.Forall₂ KeepsWindow joins relations ∧ ∀ j ∈ joins, ∀ size, size ≠ 0 → PagesFollow entity table j size := by
  have hattached := forall₂_attachments h
  refine ⟨hattached.imp ?_, fun j hj size hsize => ?_⟩
  · rintro j a ⟨_, m, inner, _, rfl⟩
    refine ⟨fun hunpaged fold inner' rows hfolds => ?_, fun number hpos hnumber => keeps_attachment_iff hpos hnumber⟩
    obtain ⟨rfl, _⟩ := hfolds.eq
    exact if_neg (Bool.eq_false_iff.1 hunpaged)
  · obtain ⟨⟨i, hi⟩, rfl⟩ := List.mem_iff_get.1 hj
    obtain ⟨hmany, m, inner, hinner, _⟩ := hattached.get hi (hattached.length_eq ▸ hi)
    exact pagesFollow hmany hinner hsize

end Attachments

/-- The steps of a task from one of the largest row numbers on, as many as can be asked for. -/
def lateSteps : JoinedLevel PlannedLevel where
  label := "steps"
  relationship := ⟨"step", .toMany, "id", "task_id"⟩
  join := .outer
  level := ⟨stepEntity, true, stepEntity.fields, [], none, some 18446744073709551615, some 9223372036854775805, []⟩

theorem keepsWindow_of_attachments_lateSteps : ∃ a, attachments taskEntity "t0" 1 [lateSteps] = .ok [a] ∧
    ¬a.Keeps 9223372036854775805 ∧ a.Keeps 9223372036854775806 ∧ a.Keeps 9223372036854775807 ∧
      PagesFollow taskEntity "t0" lateSteps 9223372036854775808 := by
  obtain ⟨a, ha⟩ : ∃ a, attachments taskEntity "t0" 1 [lateSteps] = .ok [a] := ⟨_, rfl⟩
  obtain ⟨hwindows, hpages⟩ := keepsWindow_of_attachments ha
  have hwindow := (List.forall₂_cons.1 hwindows).1.keeps_iff
  have hlate {number : Nat} (hpos : 9223372036854775805 < number) (hnumber : number < int64Bound) :
      InWindow lateSteps.level.limit lateSteps.level.offset number := by
    refine ⟨hpos, fun count hcount _ => ?_⟩
    cases hcount
    exact Nat.le_trans (Nat.le_of_lt hnumber) (by decide)
  refine ⟨a, ha, fun hkeeps => ?_, ?_, ?_, hpages _ (List.mem_singleton_self _) _ (by decide)⟩
  · exact absurd ((hwindow _ (by decide) (by decide)).1 hkeeps).1 (by decide)
  · exact (hwindow _ (by decide) (by decide)).2 (hlate (by decide) (by decide))
  · exact (hwindow _ (by decide) (by decide)).2 (hlate (by decide) (by decide))

end TreeQuery
