import TreeQuery.Proofs.PushDown
import TreeQuery.Proofs.Resolution

/-!
# Filters and the levels that they reach

A condition on a field behind some relations can be written in two places: at a level, as a filter whose path goes
through the relations, or at the level that they lead to, which is made if it is missing. A tree is valid with the one
iff it is valid with the other (`validate_dotted_iff`).

- Adding a filter asks for no more than that the filter is accepted, also where the same filter is there already
  (`validate_addFilter_iff`): filters that are the same have operands of the same kinds (`operandFault?_eq_of_same`).
- A change at the end of a path asks for what it asks of the level there, and of the path that it leads somewhere
  (`validate_modifyAt_iff`). A filter asks the same of its path (`checkFilter_dotted_iff`).
-/

namespace TreeQuery

open Outcome

/-! ## Filters that are the same -/

/-- Whether a list is mixed can be seen from the kinds of its values. -/
theorem mixture?_list (items : List Value) : mixture? (.list items) =
    match items.map Value.kind with
    | [] => none
    | first :: rest => (rest.find? fun kind => kind != first).map (.mixedList first) := by
  cases items with
  | nil => rfl
  | cons first rest =>
    simp only [mixture?, List.map_cons, List.find?_map, Option.map_map]
    rfl

theorem mixture?_eq_of_same {v w : Value} (h : v.same w = true) : mixture? v = mixture? w := by
  have hkind : v.kind = w.kind := Value.kind_eq_of_same h
  cases v with
  | list xs =>
    cases w with
    | list ys =>
      have hitems : Value.sameItems xs ys = true := h
      rw [mixture?_list, mixture?_list, Value.kinds_eq_of_sameItems hitems]
    | _ => cases hkind
  | _ =>
    cases w with
    | list ys => cases hkind
    | _ => rfl

/-- An operator takes equal operands alike. -/
theorem operandFault?_eq_of_same (op : Operator) {v w : Value} (h : v.same w = true) :
    operandFault? op v = operandFault? op w := by
  have hkind : v.kind = w.kind := Value.kind_eq_of_same h
  cases op with
  | oneOf => exact mixture?_eq_of_same h
  | compare _ | isNull | like | ilike =>
    unfold operandFault? Value.isString Value.isList
    rw [hkind]

variable {r : Registry} {e : Entity}

theorem checkFilter_iff_of_same {f g : Filter} (h : f.same g = true) :
    checkFilter r e f = .ok () ↔ checkFilter r e g = .ok () := by
  simp only [Filter.same, Bool.and_eq_true, beq_iff_eq] at h
  obtain ⟨⟨hpath, hop⟩, hvalue⟩ := h
  rw [checkFilter_eq_ok, checkFilter_eq_ok, hpath, hop, operandFault?_eq_of_same _ hvalue]

/-! ## Adding filters -/

theorem checkFilters_addFilter_iff (filters : List Filter) (f : Filter) :
    (∀ g ∈ addFilter filters f, checkFilter r e g = .ok ()) ↔
      (∀ g ∈ filters, checkFilter r e g = .ok ()) ∧ checkFilter r e f = .ok () := by
  unfold addFilter
  split
  · rename_i h
    obtain ⟨g, hg, hsame⟩ := List.any_eq_true.1 h
    exact ⟨fun h => ⟨h, (checkFilter_iff_of_same hsame).2 (h g hg)⟩, fun h => h.1⟩
  · rw [List.forall_mem_append, List.forall_mem_singleton]

/-- Filters ask of a level what they ask beside those that it has. -/
theorem validate_filters_iff {t : ActionTree} {filters : List Filter} {asks : Prop}
    (h : (∀ f ∈ filters, checkFilter r e f = .ok ()) ↔ (∀ f ∈ t.filters, checkFilter r e f = .ok ()) ∧ asks) :
    validate r e { t with filters } = .ok () ↔ validate r e t = .ok () ∧ asks := by
  rw [validate_eq_ok, validate_eq_ok]
  constructor
  · rintro ⟨hselectors, hrelations, hfilters, hsort⟩
    obtain ⟨hfilters, hasks⟩ := h.1 hfilters
    exact ⟨⟨hselectors, hrelations, hfilters, hsort⟩, hasks⟩
  · rintro ⟨⟨hselectors, hrelations, hfilters, hsort⟩, hasks⟩
    exact ⟨hselectors, hrelations, h.2 ⟨hfilters, hasks⟩, hsort⟩

/-- A filter at the end of those of a level asks that it is accepted there. -/
theorem validate_concatFilter_iff (t : ActionTree) (f : Filter) :
    validate r e { t with filters := t.filters ++ [f] } = .ok () ↔
      validate r e t = .ok () ∧ checkFilter r e f = .ok () := by
  refine validate_filters_iff ?_
  rw [List.forall_mem_append, List.forall_mem_singleton]

/-- A filter that is added to a level asks that it is accepted there, even if the same one is there. -/
theorem validate_addFilter_iff (t : ActionTree) (f : Filter) :
    validate r e (t.addFilter f) = .ok () ↔ validate r e t = .ok () ∧ checkFilter r e f = .ok () :=
  validate_filters_iff (checkFilters_addFilter_iff t.filters f)

/-! ## Changes behind relations -/

theorem Registry.reach?_append (r : Registry) (path via : List String) (e : Entity) :
    r.reach? (path ++ via) e = (r.reach? path e).bind (r.reach? via) := by
  induction path generalizing e with
  | nil => rfl
  | cons head path ih =>
    rw [List.cons_append, Registry.reach?, Registry.reach?, Option.bind_assoc]
    exact congrArg _ (funext ih)

/-- A level that no one selected fits every entity. -/
theorem validate_unselected (r : Registry) (e : Entity) (name : String) :
    validate r e (.unselected name) = .ok () := rfl

theorem validateRelations_cons_eq_ok {label : String} {level : ActionTree} {rest : List (String × ActionTree)} :
    validateRelations r e ((label, level) :: rest) = .ok () ↔
      (∃ d, r.follow? e label = some d ∧ validate r d level = .ok ()) ∧ validateRelations r e rest = .ok () := by
  rw [validateRelations_eq_ok, validateRelations_eq_ok, List.forall_mem_cons]

section Changes

variable {change : ActionTree → ActionTree} {asks : Entity → Prop}

/-- A change of the level behind a relation asks of the entity there what it asks of the level. -/
theorem validateRelations_alter_iff
    (hchange : ∀ d t, validate r d (change t) = .ok () ↔ validate r d t = .ok () ∧ asks d) (head : String)
    (relations : List (String × ActionTree)) :
    validateRelations r e (Keyed.alter head (fun child => change (child.getD (.unselected head))) relations) = .ok () ↔
      validateRelations r e relations = .ok () ∧ ∃ d, r.follow? e head = some d ∧ asks d := by
  have hlevel (level : ActionTree) : (∃ d, r.follow? e head = some d ∧ validate r d (change level) = .ok ()) ↔
      (∃ d, r.follow? e head = some d ∧ validate r d level = .ok ()) ∧ ∃ d, r.follow? e head = some d ∧ asks d := by
    simp only [hchange]
    cases r.follow? e head with
    | none => simp
    | some d => simp
  induction relations with
  | nil =>
    rw [Keyed.alter, validateRelations_cons_eq_ok, Option.getD_none, hlevel]
    constructor
    · rintro ⟨⟨_, hasks⟩, hnil⟩
      exact ⟨hnil, hasks⟩
    · rintro ⟨hnil, d, hd, hasks⟩
      exact ⟨⟨⟨d, hd, validate_unselected r d head⟩, d, hd, hasks⟩, hnil⟩
  | cons p rest ih =>
    obtain ⟨label, level⟩ := p
    rw [Keyed.alter]
    split
    · rename_i hlabel
      subst hlabel
      rw [validateRelations_cons_eq_ok, validateRelations_cons_eq_ok, Option.getD_some, hlevel, and_right_comm]
    · rw [validateRelations_cons_eq_ok, validateRelations_cons_eq_ok, and_assoc]
      exact and_congr_right fun _ => ih

/-- **A change at the end of a path** asks that the path leads to an entity, and of that what it asks of the level. -/
theorem validate_modifyAt_iff
    (hchange : ∀ d t, validate r d (change t) = .ok () ↔ validate r d t = .ok () ∧ asks d) (path : List String)
    (e : Entity) (t : ActionTree) : validate r e (t.modifyAt change path) = .ok () ↔
      validate r e t = .ok () ∧ ∃ d, r.reach? path e = some d ∧ asks d := by
  induction path generalizing e t with
  | nil => simp only [ActionTree.modifyAt, hchange, Registry.reach?, Option.some.injEq, exists_eq_left']
  | cons head path ih =>
    have hinside := validateRelations_alter_iff (e := e) ih head t.relations
    rw [validate_eq_ok, validate_eq_ok, ActionTree.modifyAt, hinside]
    simp only [Registry.reach?_cons_eq_some]
    constructor
    · rintro ⟨hselectors, ⟨hrelations, next, hnext, d, hd, hasks⟩, hfilters, hsort⟩
      exact ⟨⟨hselectors, hrelations, hfilters, hsort⟩, d, ⟨next, hnext, hd⟩, hasks⟩
    · rintro ⟨⟨hselectors, hrelations, hfilters, hsort⟩, d, ⟨next, hnext, hd⟩, hasks⟩
      exact ⟨hselectors, ⟨hrelations, next, hnext, d, hd, hasks⟩, hfilters, hsort⟩

end Changes

/-! ## Filters behind relations -/

/-- A filter is accepted behind some relations iff they lead to an entity at which the rest of it is accepted. -/
theorem checkFilter_dotted_iff (path : List String) (p : FieldPath) (op : Operator) (value : Value) :
    checkFilter r e ⟨⟨path ++ p.via, p.field⟩, op, value⟩ = .ok () ↔
      ∃ d, r.reach? path e = some d ∧ checkFilter r d ⟨p, op, value⟩ = .ok () := by
  simp only [checkFilter_eq_ok, Registry.reach?_append, Option.bind_eq_some_iff]
  constructor
  · rintro ⟨⟨d, ⟨next, hnext, hd⟩, hfield⟩, hop⟩
    exact ⟨next, hnext, ⟨d, hd, hfield⟩, hop⟩
  · rintro ⟨next, hnext, ⟨d, hd, hfield⟩, hop⟩
    exact ⟨⟨d, ⟨next, hnext, hd⟩, hfield⟩, hop⟩

/-- **A filter behind relations is valid iff it is valid at the level that it reaches.** A tree with one more filter,
whose path goes through some relations first, is valid iff the tree is valid in which the rest of the filter is added to
the level behind these relations, be they one or many, and whether that level is there, has the same filter or has to be
made. -/
theorem validate_dotted_iff (r : Registry) (e : Entity) (t : ActionTree) (path : List String) (p : FieldPath)
    (op : Operator) (value : Value) :
    validate r e { t with filters := t.filters ++ [⟨⟨path ++ p.via, p.field⟩, op, value⟩] } = .ok () ↔
      validate r e (t.modifyAt (fun level => level.addFilter ⟨p, op, value⟩) path) = .ok () := by
  have hadd (d : Entity) (level : ActionTree) := validate_addFilter_iff (r := r) (e := d) level ⟨p, op, value⟩
  rw [validate_concatFilter_iff, checkFilter_dotted_iff, validate_modifyAt_iff hadd]

/-- Behind the steps of a task there is its label again: both ways to ask for it are accepted. -/
example :
    validate taskRegistry taskEntity { ActionTree.empty with
      filters := [⟨⟨["steps", "task"], "label"⟩, .like, .string "a%"⟩] } = .ok () ∧
    validate taskRegistry taskEntity
      (ActionTree.empty.modifyAt (·.addFilter ⟨⟨["task"], "label"⟩, .like, .string "a%"⟩) ["steps"]) = .ok () :=
  ⟨rfl, rfl⟩

/-- No label is like an integer, and tasks have no field that is called title: both ways to ask are refused, and with
one error where the field is missing. -/
example :
    (validate taskRegistry taskEntity { ActionTree.empty with
      filters := [⟨⟨["steps", "task"], "label"⟩, .like, .int 1⟩] }).toOption = none ∧
    (validate taskRegistry taskEntity
      (ActionTree.empty.modifyAt (·.addFilter ⟨⟨["task"], "label"⟩, .like, .int 1⟩) ["steps"])).toOption = none ∧
    validate taskRegistry taskEntity { ActionTree.empty with
      filters := [⟨⟨["steps", "task"], "title"⟩, .like, .string "a%"⟩] } =
        .error (.invalid (.unknownName .field "title" "task" none)) ∧
    validate taskRegistry taskEntity
      (ActionTree.empty.modifyAt (·.addFilter ⟨⟨["task"], "title"⟩, .like, .string "a%"⟩) ["steps"]) =
        .error (.invalid (.unknownName .field "title" "task" none)) :=
  ⟨rfl, rfl, rfl, rfl⟩

end TreeQuery
