import TreeQuery.Proofs.Parsing
import TreeQuery.Proofs.PlanLevels
import TreeQuery.Proofs.Searching
import TreeQuery.Proofs.Windows

/-!
# Integers of compiled queries

The database reads integers of 64 bits with a sign. All integers in a compiled query are counts, and only two of them
may be too large for it: the limit and the offset of the root, which are written as they are in the tree, while those of
relations are cut off. So a query can be read iff these two are not too large, and in the tree of a text they are not
(`readsBack_compile_iff`).

- The literals of a level are the bounds of row numbers behind it, which are cut off (`literals_select`).
- No level but the root has a limit or an offset (`unlimited_select`); those of the root are the ones of the tree, or
  the default (`readsBack_query_iff`).
- A count in a text is a literal that is not negative (`readable_counts_ofText`).
-/

namespace TreeQuery

open Outcome Sql Number

/-! ## Integers of a select -/

/-- Whether a limit or an offset, if there is one, is an integer that the database can read. -/
def ReadableCount (count : Option UInt64) : Prop := ∀ n, count = some n → n.toNat < int64Bound

namespace Sql

/-- The integer that an expression is. -/
def Expr.int? : Expr → Option Int64
  | .int n => some n
  | _ => none

/-- Whether all integers in a select are counts that the database can read: its literals, and the limits and offsets of
the selects in it. -/
structure Select.ReadsBack (s : Select) : Prop where
  literals : ∀ n, Expr.int n ∈ s.parts → 0 ≤ n.toInt ∧ n.toInt < int64Bound
  counts : ∀ q ∈ s.nested, ReadableCount q.limit ∧ ReadableCount q.offset

/-- A select without limit and offset. -/
def Select.Unlimited (s : Select) : Prop := s.limit = none ∧ s.offset = none

theorem mem_filterMap_int? {n : Int64} {es : List Expr} : n ∈ es.filterMap Expr.int? ↔ .int n ∈ es := by
  rw [List.mem_filterMap]
  constructor
  · rintro ⟨e, he, hn⟩
    cases e with
    | int m => cases hn; exact he
    | _ => cases hn
  · exact fun h => ⟨_, h, rfl⟩

end Sql

theorem overlooks_int? : Overlooks Expr.int? where
  column _ _ := rfl
  text _ := rfl
  call _ _ _ := rfl
  binary _ _ _ := rfl
  isNull _ _ := rfl
  inList _ _ := rfl
  case _ _ _ := rfl
  rowNumber _ _ := rfl

/-! ## Literals -/

/-- The bounds of a window are counts. -/
theorem literals_windowConditions {rows : String} {limit offset : Option UInt64} {n : Int64}
    (h : n ∈ (partsOfAll (windowConditions rows limit offset)).filterMap Expr.int?) : 0 ≤ n.toInt := by
  obtain ⟨e, he, hn⟩ := mem_partsOfAll.1 (mem_filterMap_int?.1 h)
  obtain ⟨comparison, count, rfl⟩ := exists_of_mem_windowConditions rows he
  have hcount : n = literalCount count := by simpa [Expr.parts] using hn
  rw [hcount, toInt_literalCount]
  exact Int.natCast_nonneg _

mutual

/-- The literals of a level are counts. -/
theorem literals_select : ∀ {l : PlannedLevel} {n : Nat} {position : Standing} {s : Select},
    l.select n position = .ok s → ∀ k ∈ s.parts.filterMap Expr.int?, 0 ≤ k.toInt
  | ⟨_, _, _, _, _, _, _, relations⟩, _, _, _, h => by
    obtain ⟨as, cs, has, hcs, hfound⟩ := overlooks_int?.filterMap_select_of_object (fun _ => rfl) h
    rw [hfound, overlooks_int?.filterMap_conditions (fun _ => rfl) hcs, List.append_nil]
    exact literals_attachments has

theorem literals_attachments : ∀ {joins : List (JoinedLevel PlannedLevel)} {entity : Entity} {table : String}
    {n : Nat} {as : List Attachment}, attachments entity table n joins = .ok as →
      ∀ k ∈ (joinsParts (as.map Attachment.join)).filterMap Expr.int?, 0 ≤ k.toInt
  | [], _, _, _, _, h => by cases h; exact nofun
  | ⟨label, relationship, kind, level⟩ :: rest, entity, table, n, as, h => by
    obtain ⟨_, inner, later, hinner, hlater, rfl⟩ := attachments_cons_eq_ok.1 h
    rw [List.map_cons, overlooks_int?.filterMap_joinsParts]
    intro k hk
    rcases List.mem_append.1 hk with hk | hk
    · exact literals_select hinner k hk
    rcases List.mem_append.1 hk with hk | hk
    · exact literals_windowConditions hk
    · exact literals_attachments hlater k hk

end

/-! ## Limits and offsets -/

theorem unlimited_child {l : PlannedLevel} {n : Nat} {column : String} {s : Select}
    (h : l.select n (.child column) = .ok s) : s.Unlimited := by
  obtain ⟨_, _, _, _, rfl⟩ := PlannedLevel.select_eq_ok.1 h
  exact ⟨rfl, rfl⟩

mutual

/-- No select in a level but that of the level itself has a limit or an offset. -/
theorem unlimited_select : ∀ {l : PlannedLevel} {n : Nat} {position : Standing} {s : Select},
    l.select n position = .ok s → ∀ q ∈ s.nested, q = s ∨ q.Unlimited
  | ⟨_, _, _, _, _, _, _, relations⟩, n, position, s, h, q, hq => by
    obtain ⟨as, cs, has, _, hs⟩ := PlannedLevel.select_eq_ok.1 h
    rw [Select.nested_eq, hs, placed_source, placed_joins, ← hs] at hq
    rcases List.mem_cons.1 hq with rfl | hq
    · exact .inl rfl
    · obtain ⟨j, hj, hq⟩ := mem_joinsNested.1 hq
      obtain ⟨a, ha, rfl⟩ := List.mem_map.1 hj
      exact .inr (unlimited_attachments has a ha q hq)

theorem unlimited_attachments : ∀ {joins : List (JoinedLevel PlannedLevel)} {entity : Entity} {table : String}
    {n : Nat} {as : List Attachment}, attachments entity table n joins = .ok as →
      ∀ a ∈ as, ∀ q ∈ sourceNested a.join.source, q.Unlimited
  | [], _, _, _, _, h => by cases h; exact nofun
  | ⟨label, relationship, kind, level⟩ :: rest, entity, table, n, as, h => by
    obtain ⟨_, inner, later, hinner, hlater, rfl⟩ := attachments_cons_eq_ok.1 h
    refine List.forall_mem_cons.2 ⟨fun q hq => ?_, unlimited_attachments hlater⟩
    have hfolded : q ∈ (folded inner (tableAlias (n + level.aliasCount)) level.output level.limit
      level.offset).nested := hq
    rw [Select.nested_of_derived rfl rfl] at hfolded
    rcases List.mem_cons.1 hfolded with rfl | hq
    · exact ⟨rfl, rfl⟩
    · rcases unlimited_select hinner q hq with rfl | hq
      · exact unlimited_child hinner
      · exact hq

end

/-! ## Queries -/

theorem readableCount_filter {count : Option UInt64} : ReadableCount (count.filter (0 < ·)) ↔ ReadableCount count := by
  constructor
  · intro h n hn
    by_cases hpos : n = 0
    · subst hpos
      decide
    · exact h n (filter_pos_eq_some.2 ⟨hn, hpos⟩)
  · exact fun h n hn => h n (filter_pos_eq_some.1 hn).1

theorem readableCount_default {limit : Option UInt64} :
    ReadableCount (some (limit.getD defaultLimit)) ↔ ReadableCount limit := by
  cases limit with
  | none => exact iff_of_true (fun n hn => by cases hn; decide) nofun
  | some n => rfl

/-- A query can be read iff the counts of its root can. -/
theorem readsBack_query_iff {l : PlannedLevel} {q : Query} (h : l.query = .ok q) :
    q.select.ReadsBack ↔ ReadableCount l.limit ∧ ReadableCount l.offset := by
  obtain ⟨inner, hinner, rfl⟩ := PlannedLevel.query_eq_ok.1 h
  have hroot : ReadableCount inner.limit ∧ ReadableCount inner.offset ↔
      ReadableCount l.limit ∧ ReadableCount l.offset := by
    obtain ⟨_, _, _, _, rfl⟩ := PlannedLevel.select_eq_ok.1 hinner
    rw [← @readableCount_default l.limit, ← @readableCount_filter (some (l.limit.getD defaultLimit)),
      ← @readableCount_filter l.offset]
    rfl
  have hnested := Select.nested_of_derived (s := documentSelect inner (tableAlias l.aliasCount)) rfl rfl
  rw [← hroot]
  constructor
  · intro hreads
    refine hreads.counts inner ?_
    rw [hnested, Select.nested_eq]
    exact List.mem_cons_of_mem _ List.mem_cons_self
  · refine fun hcounts => ⟨fun n hn => ?_, fun q hq => ?_⟩
    · rw [← mem_filterMap_int?, overlooks_int?.filterMap_documentSelect] at hn
      exact ⟨literals_select hinner n hn, toInt_lt_int64Bound n⟩
    · rw [hnested] at hq
      rcases List.mem_cons.1 hq with rfl | hq
      · exact ⟨nofun, nofun⟩
      · rcases unlimited_select hinner q hq with rfl | ⟨hlimit, hoffset⟩
        · exact hcounts
        · rw [hlimit, hoffset]
          exact ⟨nofun, nofun⟩

/-! ## Counts of texts -/

namespace ActionTree

/-- Whether the count of a modifier, if it has one, is an integer that the database can read. -/
def ReadableModifier : Modifier → Prop
  | .limit count | .offset count => count.toNat < int64Bound
  | .filter _ _ _ | .order _ _ => True

theorem readable_counts_modifyAll {modifiers : List Modifier} (hmodifiers : ∀ m ∈ modifiers, ReadableModifier m)
    {t t' : ActionTree} (h : t.modifyAll modifiers = .ok t') (ht : ReadableCount t.limit ∧ ReadableCount t.offset) :
    ReadableCount t'.limit ∧ ReadableCount t'.offset := by
  induction modifiers generalizing t with
  | nil => cases h; exact ht
  | cons m rest ih =>
    obtain ⟨hm, hrest⟩ := List.forall_mem_cons.1 hmodifiers
    obtain ⟨u, hu, h⟩ := bind_eq_ok.1 (show (t.modify m >>= fun t => t.modifyAll rest) = .ok t' from h)
    refine ih hrest h ?_
    cases m with
    | filter path op value =>
      rw [modify] at hu
      split at hu
      · cases hu; exact ht
      · cases hu
    | order _ _ => cases hu; exact ht
    | limit count => cases hu; exact ⟨fun n hn => by cases hn; exact hm, ht.2⟩
    | offset count => cases hu; exact ⟨ht.1, fun n hn => by cases hn; exact hm⟩

/-- The entries of a field list leave the counts of a level as they are. -/
theorem counts_addFields {fields : List (FieldEntry SyntaxTree)} {t t' : ActionTree}
    (h : t.addFields fields = .ok t') : t'.limit = t.limit ∧ t'.offset = t.offset := by
  induction fields generalizing t with
  | nil => rw [addFields] at h; cases h; exact ⟨rfl, rfl⟩
  | cons entry fields ih =>
    cases entry with
    | name _ | excluded _ | wildcard =>
      rw [addFields] at h
      obtain ⟨hlimit, hoffset⟩ := ih h
      exact ⟨hlimit, hoffset⟩
    | relation _ _ =>
      rw [addFields] at h
      obtain ⟨child, _, h⟩ := bind_eq_ok.1 h
      obtain ⟨hlimit, hoffset⟩ := ih h
      exact ⟨hlimit, hoffset⟩

theorem readable_clause (c : Grammar.Clause) : ReadableModifier c.modifier := by
  cases c with
  | filter _ _ _ _ | order _ _ => trivial
  | count what n =>
    have hcount : n.value.toNat < int64Bound := by
      have hnonneg : 0 ≤ n.n.toBitVec.toInt := Int64.le_iff_toInt_le.1 n.nonneg
      have hhalf : 2 * n.value.toNat < 2 ^ 64 := BitVec.toInt_pos_iff.1 hnonneg
      unfold int64Bound
      omega
    cases what <;> exact hcount

/-- The counts of a text can be read. -/
theorem readable_counts_ofText {text : String} {t : ActionTree} (h : ActionTree.ofText text = .ok t) :
    ReadableCount t.limit ∧ ReadableCount t.offset := by
  obtain ⟨tree, htree, h⟩ := bind_eq_ok.1 h
  obtain ⟨lexemes, _, htree⟩ := bind_eq_ok.1 htree
  obtain ⟨⟨first, more, clauses⟩, _, _, rfl⟩ := SyntaxTree.ofLexemes_eq_ok.1 htree
  rw [ofSyntax, Grammar.Level.tree, ofLevel] at h
  obtain ⟨u, hu, h⟩ := bind_eq_ok.1 h
  obtain ⟨hlimit, hoffset⟩ := counts_addFields hu
  refine readable_counts_modifyAll (fun m hm => ?_) h ?_
  · obtain ⟨c, _, rfl⟩ := List.mem_map.1 hm
    exact readable_clause c
  · rw [hlimit, hoffset]
    exact ⟨nofun, nofun⟩

end ActionTree

/-- **The counts of the root are not cut off.** The integers in a compiled query are counts that the database can read,
whatever the counts of relations are, iff the limit and the offset of the tree are such counts themselves. In the tree
of a text they are. -/
theorem readsBack_compile_iff {r : Registry} {e : Entity} {t : ActionTree} {q : Query} (h : t.compile r e = .ok q) :
    (q.select.ReadsBack ↔ ReadableCount t.limit ∧ ReadableCount t.offset) ∧
      ∀ text, ActionTree.ofText text = .ok t → q.select.ReadsBack := by
  obtain ⟨p, hp, hq⟩ := compile_eq_ok.1 h
  obtain ⟨hlimit, hoffset⟩ := paging_of_plan hp
  have hreads : q.select.ReadsBack ↔ ReadableCount t.limit ∧ ReadableCount t.offset := by
    rw [← hlimit, ← hoffset]
    exact readsBack_query_iff hq
  exact ⟨hreads, fun text htext => hreads.2 (ActionTree.readable_counts_ofText htext)⟩

/-- As many tasks as the database can count, each with more of its steps than that. -/
def tasksWithManySteps : ActionTree :=
  { ActionTree.empty with
    limit := some 9223372036854775807
    relations := [("steps", { ActionTree.empty with
      name := some "steps"
      limit := some 18446744073709551615
      offset := some 9223372036854775808 })] }

theorem readsBack_compile_iff_steps :
    (∃ q, tasksWithManySteps.compile taskRegistry taskEntity = .ok q ∧ q.select.ReadsBack) ∧
      ∃ t q, ActionTree.ofText "q=(id).limit(9223372036854775807)" = .ok t ∧
        t.compile taskRegistry taskEntity = .ok q ∧ q.select.ReadsBack := by
  obtain ⟨q, hq⟩ : ∃ q, tasksWithManySteps.compile taskRegistry taskEntity = .ok q := ⟨_, rfl⟩
  obtain ⟨t, ht, q', hq'⟩ : ∃ t, ActionTree.ofText "q=(id).limit(9223372036854775807)" = .ok t ∧
      ∃ q, t.compile taskRegistry taskEntity = .ok q :=
    ⟨_, ActionTree.ofText_eq_ok.2 ⟨⟨[.name "id"], [.limit 9223372036854775807]⟩, rfl, rfl⟩, _, rfl⟩
  refine ⟨⟨q, hq, (readsBack_compile_iff hq).1.2 ⟨fun n hn => ?_, fun n hn => ?_⟩⟩,
    t, q', ht, hq', (readsBack_compile_iff hq').2 _ ht⟩
  · cases hn
    decide
  · cases hn

/-- One task more than the database can count. -/
def tooManyTasks : ActionTree :=
  { ActionTree.empty with select := .fields [.field "id"], limit := some 9223372036854775808 }

/-- The limit of a root is written as it is, though it is too large to be read. -/
theorem not_readsBack_tooManyTasks :
    ∃ q, tooManyTasks.compile taskRegistry taskEntity = .ok q ∧ ¬q.select.ReadsBack := by
  obtain ⟨q, hq, inner, hinner, hlimit⟩ : ∃ q, tooManyTasks.compile taskRegistry taskEntity = .ok q ∧
      ∃ s ∈ q.select.nested, s.limit = some 9223372036854775808 :=
    ⟨_, rfl, _, List.mem_cons_of_mem _ List.mem_cons_self, rfl⟩
  exact ⟨q, hq, fun hreads => absurd ((hreads.counts inner hinner).1 _ hlimit) (by decide)⟩

end TreeQuery
