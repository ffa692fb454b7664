import TreeQuery.Proofs.Outcome
import TreeQuery.Validation

/-!
# Where names lead

Relations lead from an entity to others: `Registry.follow?` goes through one relation, `Registry.reach?` through a
path of them. What validation accepts is said in these terms, one function of it at a time (`destination_eq_ok`,
`checkPath_eq_ok`, `checkFilter_eq_ok`, `validate_eq_ok`).
-/

namespace TreeQuery

open Outcome

variable {r : Registry} {e d : Entity} {label : String}

/-! ## Relations -/

/-- The entity that a relation of an entity leads to. -/
def Registry.follow? (r : Registry) (e : Entity) (label : String) : Option Entity :=
  (e.relationship? label).bind fun rel => r.entity? rel.target

/-- The entity at the end of a path of relations. -/
def Registry.reach? (r : Registry) : List String → Entity → Option Entity
  | [], e => some e
  | head :: via, e => (r.follow? e head).bind (r.reach? via)

theorem Registry.follow?_eq_some :
    r.follow? e label = some d ↔ ∃ rel, e.relationship? label = some rel ∧ r.entity? rel.target = some d :=
  Option.bind_eq_some_iff

theorem Registry.reach?_cons_eq_some {head : String} {via : List String} :
    r.reach? (head :: via) e = some d ↔ ∃ next, r.follow? e head = some next ∧ r.reach? via next = some d :=
  Option.bind_eq_some_iff

theorem Registry.target_eq_ok {rel : Relationship} :
    r.target e label rel = .ok d ↔ r.entity? rel.target = some d := by
  unfold Registry.target
  cases r.entity? rel.target with
  | none => simp
  | some t => simp

/-! ## What validation accepts -/

theorem destination_eq_ok : destination r e label = .ok d ↔ r.follow? e label = some d := by
  rw [Registry.follow?_eq_some]
  unfold destination
  cases e.relationship? label with
  | none => simp
  | some rel => simp [Registry.target_eq_ok]

theorem checkField_eq_ok : checkField e label = .ok () ↔ (e.field? label).isSome = true := by
  unfold checkField
  cases (e.field? label).isSome with
  | true => simp
  | false => simp only [Bool.false_eq_true, ↓reduceIte, iff_false]; split <;> nofun

/-- A path is accepted iff it leads to an entity that has the field. -/
theorem checkPath_eq_ok {field : String} : ∀ {via : List String} {e : Entity},
    checkPath r field via e = .ok () ↔ ∃ d, r.reach? via e = some d ∧ (d.field? field).isSome = true
  | [], e => by simp [checkPath, Registry.reach?, checkField_eq_ok]
  | head :: via, e => by
    simp only [checkPath, bind_eq_ok, destination_eq_ok, checkPath_eq_ok, Registry.reach?_cons_eq_some]
    constructor
    · rintro ⟨next, hn, d, hd, hf⟩; exact ⟨d, ⟨next, hn, hd⟩, hf⟩
    · rintro ⟨d, ⟨next, hn, hd⟩, hf⟩; exact ⟨next, hn, d, hd, hf⟩

/-- A filter is accepted iff its path leads to a field and its operator takes its operand. -/
theorem checkFilter_eq_ok {f : Filter} : checkFilter r e f = .ok () ↔
    (∃ d, r.reach? f.path.via e = some d ∧ (d.field? f.path.field).isSome = true) ∧
      operandFault? f.operator f.value = none := by
  rw [← checkPath_eq_ok]
  unfold checkFilter
  cases operandFault? f.operator f.value with
  | none => simp [then_eq_ok]
  | some fault => simp [then_eq_ok]

theorem validate_eq_ok {t : ActionTree} : validate r e t = .ok () ↔
    (∀ s ∈ t.select.selectors, checkSelector e s = .ok ()) ∧ validateRelations r e t.relations = .ok () ∧
      (∀ f ∈ t.filters, checkFilter r e f = .ok ()) ∧ checkSorting e t.sort = .ok () := by
  obtain ⟨_, select, filters, sort, _, _, relations⟩ := t
  simp only [validate, then_eq_ok, ← forM_eq_ok]

/-- The relations of a level are accepted iff each leads to an entity that its level fits. -/
theorem validateRelations_eq_ok {relations : List (String × ActionTree)} : validateRelations r e relations = .ok () ↔
    ∀ p ∈ relations, ∃ d, r.follow? e p.1 = some d ∧ validate r d p.2 = .ok () := by
  induction relations with
  | nil => simp [validateRelations]
  | cons p rest ih =>
    rw [validateRelations, bind_eq_ok, List.forall_mem_cons, ← ih]
    constructor
    · rintro ⟨d, hd, h⟩
      obtain ⟨hc, hr⟩ := then_eq_ok.1 h
      exact ⟨⟨d, destination_eq_ok.1 hd, hc⟩, hr⟩
    · rintro ⟨⟨d, hd, hc⟩, hr⟩
      exact ⟨d, destination_eq_ok.2 hd, then_eq_ok.2 ⟨hc, hr⟩⟩

/-! ## A small registry -/

/-- Tasks, each with many steps. -/
def taskEntity : Entity where
  name := "task"
  table := "tasks"
  identity := "id"
  fields := [⟨"id", "id"⟩, ⟨"title", "label"⟩]
  relationships := [("steps", ⟨"step", .toMany, "id", "task_id"⟩)]

/-- Steps of one task each, with other steps as their peers. -/
def stepEntity : Entity where
  name := "step"
  table := "steps"
  identity := "id"
  fields := [⟨"id", "id"⟩, ⟨"title", "label"⟩]
  relationships := [("task", ⟨"task", .toOne, "task_id", "id"⟩), ("peers", ⟨"step", .manyToMany, "id", "id"⟩)]

/-- The registry of tasks and steps. -/
def taskRegistry : Registry := ⟨[("task", taskEntity), ("step", stepEntity)]⟩

example : taskRegistry.reach? ["steps", "peers", "task"] taskEntity = some taskEntity := rfl

end TreeQuery
