import TreeQuery.ActionTree.Build
import TreeQuery.Proofs.Resolution

/-!
# Whose fault an error is

The errors that the stages before planning can give. Reading fails with a fault of the text (`ofText_eq_error`), and
over a registry that passes its check validation fails only with a fault of the query (`validate_eq_error`): the check
leaves no relationship without a target (`Registry.Closed`).
-/

namespace TreeQuery

open Outcome

/-- An error of the query: its text is malformed, or it does not fit the schema. -/
def Error.OfQuery (err : Error) : Prop :=
  (∃ position fault, err = .malformed position fault) ∨ ∃ fault, err = .invalid fault

/-- Whoever wrote the query can mend an error of the query, and is told so. -/
theorem Error.OfQuery.status {err : Error} (h : err.OfQuery) : err.blame = .client ∧ err.status = 422 := by
  obtain ⟨_, _, rfl⟩ | ⟨_, rfl⟩ := h
  · exact ⟨rfl, rfl⟩
  · exact ⟨rfl, rfl⟩

/-! ## Reading -/

section Reading

variable {err : Error}

theorem lexemes_eq_error : ∀ {cs : List Char} {skip offset : Nat}, Token.lexemes cs skip offset = .error err →
    ∃ position fault, err = .malformed position fault
  | [], _, _, h => nomatch h
  | c :: rest, skip + 1, offset, h => lexemes_eq_error (show Token.lexemes rest skip _ = _ from h)
  | c :: rest, 0, offset, h => by
    rw [Token.lexemes] at h
    split at h
    · exact lexemes_eq_error h
    · split at h
      · cases h
        exact ⟨_, _, rfl⟩
      · rcases bind_eq_error.1 h with h | ⟨_, _, h⟩
        · exact lexemes_eq_error h
        · cases h

theorem advance_eq_error : ∀ {lexemes : List Lexeme} {s : SyntaxTree.State},
    SyntaxTree.advance s lexemes = .error err → ∃ position fault, err = .malformed position fault
  | [], _, h => nomatch h
  | lexeme :: rest, s, h => by
    rw [SyntaxTree.advance] at h
    split at h
    · exact advance_eq_error h
    · cases h
      exact ⟨_, _, rfl⟩

/-- A text of which no syntax tree can be read is malformed. -/
theorem syntaxTree_eq_error {text : String} (h : SyntaxTree.ofText text = .error err) :
    ∃ position fault, err = .malformed position fault := by
  rcases bind_eq_error.1 h with h | ⟨lexemes, _, h⟩
  · exact lexemes_eq_error h
  · rcases bind_eq_error.1 h with h | ⟨s, _, h⟩
    · exact advance_eq_error h
    · unfold SyntaxTree.conclude at h
      split at h
      · cases h
      · cases h
        exact ⟨_, _, rfl⟩

theorem modifyAll_eq_error : ∀ {modifiers : List Modifier} {t : ActionTree},
    t.modifyAll modifiers = .error err → err = .invalid .filterWithoutField
  | [], _, h => nomatch h
  | m :: rest, t, h => by
    rcases bind_eq_error.1 (show (t.modify m >>= fun t => t.modifyAll rest) = .error err from h) with h | ⟨_, _, h⟩
    · cases m with
      | filter path op value =>
        rw [ActionTree.modify] at h
        split at h
        · cases h
        · cases h
          rfl
      | order _ _ | limit _ | offset _ => cases h
    · exact modifyAll_eq_error h

mutual

/-- Only a filter that names no field keeps a syntax tree from describing a level. -/
theorem ofLevel_eq_error : ∀ {tree : SyntaxTree} {name : Option String},
    ActionTree.ofLevel name tree = .error err → err = .invalid .filterWithoutField
  | ⟨_, _⟩, _, h => by
    rw [ActionTree.ofLevel] at h
    rcases bind_eq_error.1 h with h | ⟨_, _, h⟩
    · exact addFields_eq_error h
    · exact modifyAll_eq_error h

theorem addFields_eq_error : ∀ {fields : List (FieldEntry SyntaxTree)} {t : ActionTree},
    t.addFields fields = .error err → err = .invalid .filterWithoutField
  | [], _, h => nomatch h
  | .name _ :: rest, t, h | .excluded _ :: rest, t, h | .wildcard :: rest, t, h => by
    rw [ActionTree.addFields] at h
    exact addFields_eq_error h
  | .relation _ _ :: rest, t, h => by
    rw [ActionTree.addFields] at h
    rcases bind_eq_error.1 h with h | ⟨_, _, h⟩
    · exact ofLevel_eq_error h
    · exact addFields_eq_error h

end

/-- Whether a modifier names a field if it is a filter. -/
def Modifier.NamesField : Modifier → Prop
  | .filter path _ _ => path ≠ []
  | .order .. | .limit _ | .offset _ => True

/-- Whether every filter of a tree, at any depth, names a field. -/
inductive SyntaxTree.NamesFields : SyntaxTree → Prop
  | intro {fields : List (FieldEntry SyntaxTree)} {modifiers : List Modifier}
    (here : ∀ m ∈ modifiers, m.NamesField)
    (inside : ∀ label level, FieldEntry.relation label level ∈ fields → NamesFields level) :
    NamesFields ⟨fields, modifiers⟩

theorem exists_ofSegments? {segments : List String} (h : segments ≠ []) :
    ∃ path, FieldPath.ofSegments? segments = some path := by
  fun_induction FieldPath.ofSegments? segments with
  | case1 => exact absurd rfl h
  | case2 field => exact ⟨_, rfl⟩
  | case3 head next rest ih =>
    obtain ⟨path, hpath⟩ := ih nofun
    exact ⟨_, by rw [hpath]; rfl⟩

theorem exists_modify {m : Modifier} (h : m.NamesField) (t : ActionTree) : ∃ t', t.modify m = .ok t' := by
  cases m with
  | filter path operator value =>
    obtain ⟨p, hp⟩ := exists_ofSegments? h
    exact ⟨_, by rw [ActionTree.modify, hp]⟩
  | order | limit | offset => exact ⟨_, rfl⟩

theorem exists_modifyAll {modifiers : List Modifier} (h : ∀ m ∈ modifiers, m.NamesField) (t : ActionTree) :
    ∃ t', t.modifyAll modifiers = .ok t' := by
  induction modifiers generalizing t with
  | nil => exact ⟨t, rfl⟩
  | cons m modifiers ih =>
    obtain ⟨hm, hmodifiers⟩ := List.forall_mem_cons.1 h
    obtain ⟨u, hu⟩ := exists_modify hm t
    rw [ActionTree.modifyAll, hu]
    exact ih hmodifiers u

theorem exists_addFields {fields : List (FieldEntry SyntaxTree)}
    (h : ∀ label level, FieldEntry.relation label level ∈ fields →
      ∀ name, ∃ child, ActionTree.ofLevel name level = .ok child) (t : ActionTree) :
    ∃ t', t.addFields fields = .ok t' := by
  induction fields generalizing t with
  | nil => exact ⟨t, rfl⟩
  | cons entry fields ih =>
    have hrest := ih fun label level hmem => h label level (List.mem_cons_of_mem _ hmem)
    cases entry with
    | name | excluded | wildcard =>
      rw [ActionTree.addFields]
      exact hrest _
    | relation label level =>
      obtain ⟨child, hchild⟩ := h label level List.mem_cons_self (some label)
      rw [ActionTree.addFields, hchild]
      exact hrest _

/-- A tree whose filters all name a field describes a level. -/
theorem exists_ofLevel {tree : SyntaxTree} (h : tree.NamesFields) (name : Option String) :
    ∃ t, ActionTree.ofLevel name tree = .ok t := by
  induction h generalizing name with
  | intro hmodifiers _ ih =>
    obtain ⟨t, ht⟩ := exists_addFields ih { ActionTree.empty with name }
    rw [ActionTree.ofLevel, ht]
    exact exists_modifyAll hmodifiers t

/-- A text that cannot be read as a tree is at fault itself. -/
theorem ofText_eq_error {text : String} (h : ActionTree.ofText text = .error err) : err.OfQuery := by
  rcases bind_eq_error.1 h with h | ⟨_, _, h⟩
  · exact .inl (syntaxTree_eq_error h)
  · exact .inr ⟨_, ofLevel_eq_error h⟩

end Reading

/-! ## Validation over a checked registry -/

section Validation

variable {r : Registry} {err : Error}

/-- Every relationship of an entity leads to an entity. -/
def Registry.Closed (r : Registry) (e : Entity) : Prop :=
  ∀ label rel, e.relationship? label = some rel → (r.entity? rel.target).isSome = true

theorem require_eq_ok {name : String} {e : Entity} : r.require name = .ok e ↔ r.entity? name = some e := by
  unfold Registry.require
  cases r.entity? name with
  | none => simp
  | some e => simp

theorem require_eq_error {name : String} (h : r.require name = .error err) : ∃ fault, err = .invalid fault := by
  unfold Registry.require at h
  split at h
  · cases h
  · cases h
    exact ⟨_, rfl⟩

/-- In a registry that passes its check, every entity is closed. -/
theorem closed_of_check (h : r.check = .ok ()) {name : String} {e : Entity} (he : r.entity? name = some e) :
    r.Closed e := by
  intro label rel hrel
  have hentity := forM_eq_ok.1 h _ (Keyed.mem_of_find? he)
  have hcheck : r.checkRelationship e label rel = .ok () := forM_eq_ok.1 hentity _ (Keyed.mem_of_find? hrel)
  unfold Registry.checkRelationship at hcheck
  split at hcheck
  · cases hcheck
  · rename_i hsome
    exact Option.isSome_iff_ne_none.2 (by simpa using hsome)

theorem checkField_eq_error {e : Entity} {label : String} (h : checkField e label = .error err) :
    ∃ fault, err = .invalid fault := by
  unfold checkField at h
  split at h
  · cases h
  · split at h
    · cases h
      exact ⟨_, rfl⟩
    · cases h
      exact ⟨_, rfl⟩

/-- From a closed entity, a relation that leads nowhere is one that the entity does not have. -/
theorem destination_eq_error {e : Entity} (he : r.Closed e) {label : String}
    (h : destination r e label = .error err) : ∃ fault, err = .invalid fault := by
  unfold destination at h
  split at h
  · rename_i rel hrel
    obtain ⟨d, hd⟩ := Option.isSome_iff_exists.1 (he label rel hrel)
    rw [Registry.target_eq_ok.2 hd] at h
    cases h
  · cases h
    exact ⟨_, rfl⟩

variable (hr : ∀ {name : String} {e : Entity}, r.entity? name = some e → r.Closed e)
include hr

/-- The entities behind the relations of a closed registry are closed. -/
theorem closed_of_follow? {e d : Entity} {label : String} (hd : r.follow? e label = some d) : r.Closed d := by
  obtain ⟨_, _, htarget⟩ := Registry.follow?_eq_some.1 hd
  exact hr htarget

theorem checkPath_eq_error {field : String} : ∀ {via : List String} {e : Entity}, r.Closed e →
    checkPath r field via e = .error err → ∃ fault, err = .invalid fault
  | [], _, _, h => checkField_eq_error h
  | head :: via, e, he, h => by
    rcases bind_eq_error.1 (show (destination r e head >>= checkPath r field via) = .error err from h) with h | h
    · exact destination_eq_error he h
    · obtain ⟨d, hd, h⟩ := h
      exact checkPath_eq_error (closed_of_follow? hr (destination_eq_ok.1 hd)) h

theorem checkFilter_eq_error {e : Entity} (he : r.Closed e) {f : Filter} (h : checkFilter r e f = .error err) :
    ∃ fault, err = .invalid fault := by
  rcases bind_eq_error.1 h with h | ⟨_, _, h⟩
  · exact checkPath_eq_error hr he h
  · split at h
    · cases h
      exact ⟨_, rfl⟩
    · cases h

mutual

/-- Over closed entities, a tree is refused for what it says itself. -/
theorem validate_eq_error : ∀ {t : ActionTree} {e : Entity}, r.Closed e → validate r e t = .error err →
    ∃ fault, err = .invalid fault
  | ⟨_, select, filters, sort, _, _, relations⟩, e, he, h => by
    rw [validate] at h
    rcases bind_eq_error.1 h with h | ⟨_, _, h⟩
    · obtain ⟨s, _, hs⟩ := exists_of_forM_eq_error h
      cases s with
      | wildcard => cases hs
      | field label | exclude label => exact checkField_eq_error hs
    rcases bind_eq_error.1 h with h | ⟨_, _, h⟩
    · exact validateRelations_eq_error he h
    rcases bind_eq_error.1 h with h | ⟨_, _, h⟩
    · obtain ⟨f, _, hf⟩ := exists_of_forM_eq_error h
      exact checkFilter_eq_error hr he hf
    · cases sort with
      | none => cases h
      | some s => exact checkField_eq_error h

theorem validateRelations_eq_error : ∀ {relations : List (String × ActionTree)} {e : Entity}, r.Closed e →
    validateRelations r e relations = .error err → ∃ fault, err = .invalid fault
  | [], _, _, h => nomatch h
  | (label, child) :: rest, e, he, h => by
    rw [validateRelations] at h
    rcases bind_eq_error.1 h with h | ⟨d, hd, h⟩
    · exact destination_eq_error he h
    rcases bind_eq_error.1 h with h | ⟨_, _, h⟩
    · exact validate_eq_error (closed_of_follow? hr (destination_eq_ok.1 hd)) h
    · exact validateRelations_eq_error he h

end

end Validation

end TreeQuery
