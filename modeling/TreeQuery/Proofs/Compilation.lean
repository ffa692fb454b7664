import TreeQuery.Proofs.Outcome
import TreeQuery.Query.OfText

/-!
# Compiling, step by step

What a compiled level consists of: one equivalence for each function that compiles (`select_eq_ok`,
`attachments_cons_eq_ok`, `query_eq_ok`, `compile_eq_ok`), up to the query of a text (`Query.ofText_eq_ok`).
-/

namespace TreeQuery

open Outcome Sql

/-! ## Levels -/

/-- A level compiles iff its relations and its conditions do; its select is then put together from them. -/
theorem PlannedLevel.select_eq_ok {l : PlannedLevel} {n : Nat} {position : Standing} {s : Select} :
    l.select n position = .ok s ↔ ∃ relations conditions,
      attachments l.entity (tableAlias n) (n + 1) l.relations = .ok relations ∧
        l.conditions.mapM (conditionExpr (tableAlias n)) = .ok conditions ∧
        s = placed
          (levelBase l.entity l.output l.fields (tableAlias n) relations conditions (hasToMany l.relations)) position
          (tableAlias n) (levelOrder l.entity l.sort (tableAlias n)) l.limit l.offset := by
  obtain ⟨entity, output, fields, conditions, sort, limit, offset, relations⟩ := l
  rw [PlannedLevel.select]
  constructor
  · intro h
    obtain ⟨as, has, h⟩ := bind_eq_ok.1 h
    obtain ⟨cs, hcs, h⟩ := bind_eq_ok.1 h
    cases h
    exact ⟨as, cs, has, hcs, rfl⟩
  · rintro ⟨as, cs, has, hcs, rfl⟩
    rw [has, ok_bind, hcs]
    rfl

section Placed

variable (base : Select) (position : Standing) (table : String) (order : List (Expr × SortOrder))
  (limit offset : Option UInt64)

theorem placed_source : (placed base position table order limit offset).source = base.source := by
  cases position <;> rfl

theorem placed_joins : (placed base position table order limit offset).joins = base.joins := by
  cases position <;> rfl

theorem placed_conditions : (placed base position table order limit offset).conditions = base.conditions := by
  cases position <;> rfl

theorem placed_groupBy : (placed base position table order limit offset).groupBy = base.groupBy := by
  cases position <;> rfl

end Placed

section Attachments

variable {entity : Entity} {table label : String} {n : Nat} {relationship : Relationship} {kind : JoinKind}
  {level : PlannedLevel} {rest : List (JoinedLevel PlannedLevel)}

/-- A relation to many partners on both sides is refused; any other takes its names before those that follow it. -/
theorem attachments_cons : attachments entity table n (⟨label, relationship, kind, level⟩ :: rest) =
    if relationship.direction = .manyToMany then .error (.uncompilable (.manyToMany entity.name label))
    else do
      let inner ← level.select n (.child relationship.childColumn)
      let later ← attachments entity table (n + level.aliasCount + 2) rest
      return attachment table label relationship kind level inner (tableAlias (n + level.aliasCount))
        (tableAlias (n + level.aliasCount + 1)) :: later := by
  rw [attachments]
  split <;> rfl

theorem attachments_cons_eq_ok {relations : List Attachment} :
    attachments entity table n (⟨label, relationship, kind, level⟩ :: rest) = .ok relations ↔
      relationship.direction ≠ .manyToMany ∧ ∃ inner later,
        level.select n (.child relationship.childColumn) = .ok inner ∧
          attachments entity table (n + level.aliasCount + 2) rest = .ok later ∧
          relations = attachment table label relationship kind level inner (tableAlias (n + level.aliasCount))
            (tableAlias (n + level.aliasCount + 1)) :: later := by
  rw [attachments_cons]
  constructor
  · intro h
    split at h
    · cases h
    · rename_i hmany
      obtain ⟨inner, hinner, h⟩ := bind_eq_ok.1 h
      obtain ⟨later, hlater, h⟩ := bind_eq_ok.1 h
      cases h
      exact ⟨hmany, inner, later, hinner, hlater, rfl⟩
  · rintro ⟨hmany, inner, later, hinner, hlater, rfl⟩
    rw [if_neg hmany, hinner, ok_bind, hlater]
    rfl

end Attachments

/-! ## Queries -/

theorem PlannedLevel.query_eq_ok {l : PlannedLevel} {q : Query} : l.query = .ok q ↔
    ∃ inner, l.select 0 .root = .ok inner ∧ q = ⟨l.entity.name, documentSelect inner (tableAlias l.aliasCount)⟩ := by
  unfold PlannedLevel.query
  rw [bind_eq_ok]
  exact exists_congr fun _ => and_congr_right fun _ => by rw [pure_eq, Except.ok.injEq, eq_comm]

theorem compile_eq_ok {r : Registry} {e : Entity} {t : ActionTree} {q : Query} : t.compile r e = .ok q ↔
    ∃ p, t.plan r e = .ok p ∧ p.query = .ok q := bind_eq_ok

/-- A text is a query of an entity iff the entity is there, a tree comes out of the text, and the tree is valid and
compiles. -/
theorem Query.ofText_eq_ok {r : Registry} {name text : String} {q : Query} : Query.ofText r name text = .ok q ↔
    ∃ e t, r.require name = .ok e ∧ ActionTree.ofText text = .ok t ∧ validate r e t = .ok () ∧
      t.compile r e = .ok q := by
  constructor
  · intro h
    obtain ⟨e, he, h⟩ := bind_eq_ok.1 h
    obtain ⟨t, ht, h⟩ := bind_eq_ok.1 h
    obtain ⟨hvalid, hcompile⟩ := then_eq_ok.1 h
    exact ⟨e, t, he, ht, hvalid, hcompile⟩
  · rintro ⟨e, t, he, ht, hvalid, hcompile⟩
    exact bind_eq_ok.2 ⟨e, he, bind_eq_ok.2 ⟨t, ht, then_eq_ok.2 ⟨hvalid, hcompile⟩⟩⟩

end TreeQuery
