import TreeQuery.Proofs.Blame
import TreeQuery.Proofs.Compilation
import TreeQuery.Proofs.Everywhere
import TreeQuery.Proofs.ManyToMany

/-!
# Validation is enough

A valid tree has a plan, and its plan compiles unless the tree speaks of a many-to-many relationship
(`validate_suffices`).

Validation looks at paths where they are written, and planning resolves names where the paths lead. The two meet in
the routed tree: it *fits* an entity (`RoutedTree.Fits`) if every name resolves at its level and every operator takes
its operand there. A valid tree is routed to one that fits (`fits_route`), as a condition is placed at a level that
its path reaches (`fits_place`); a routed tree that fits has a plan whose operands fit (`exists_plan_of_fits`); and
such a plan compiles up to many-to-many relationships (`select_outcome`).
-/

namespace TreeQuery

open Outcome Sql

/-! ## Trees that fit an entity -/

/-- A condition tests a field of the entity, and its operator takes its operand. -/
def Condition.Fits (e : Entity) (c : Condition) : Prop :=
  (e.field? c.field).isSome = true ∧ operandFault? c.operator c.value = none

mutual

/-- Every name of a routed tree resolves at its level, and every operator takes its operand. -/
def RoutedTree.Fits (r : Registry) (e : Entity) : RoutedTree → Prop
  | ⟨select, conditions, sort, _, _, branches⟩ =>
    (∀ s ∈ select.selectors, checkSelector e s = .ok ()) ∧ (∀ c ∈ conditions, c.Fits e) ∧
      checkSorting e sort = .ok () ∧ BranchesFit r e branches

/-- Every branch is a relation of the entity, and the level behind it fits the entity that it leads to. -/
def BranchesFit (r : Registry) (e : Entity) : List (Branch RoutedTree) → Prop
  | [] => True
  | ⟨label, _, level⟩ :: rest => (∃ d, r.follow? e label = some d ∧ level.Fits r d) ∧ BranchesFit r e rest

end

section Routing

variable {r : Registry}

theorem fits_unselected (e : Entity) : RoutedTree.unselected.Fits r e :=
  ⟨List.forall_mem_nil _, List.forall_mem_nil _, rfl, trivial⟩

theorem mem_addCondition {conditions : List Condition} {c x : Condition} (h : x ∈ addCondition conditions c) :
    x ∈ conditions ∨ x = c := by
  unfold addCondition at h
  split at h
  · exact .inl h
  · simpa using h

/-- Changing the level behind a relation keeps the fit, if it keeps the fit of that level. -/
theorem branchesFit_restrict {e d : Entity} {label : String} {f : RoutedTree → RoutedTree}
    (hd : r.follow? e label = some d) (hf : ∀ t : RoutedTree, t.Fits r d → (f t).Fits r d) :
    ∀ {branches : List (Branch RoutedTree)}, BranchesFit r e branches →
      BranchesFit r e (RoutedTree.restrict label f branches)
  | [], _ => ⟨⟨d, hd, hf _ (fits_unselected d)⟩, trivial⟩
  | ⟨label', restricts, level⟩ :: rest, ⟨⟨d', hd', hlevel⟩, hrest⟩ => by
    unfold RoutedTree.restrict
    by_cases h : label' = label
    · subst h
      rw [hd] at hd'
      cases hd'
      simp only [↓reduceIte]
      exact ⟨⟨d, hd, hf _ hlevel⟩, hrest⟩
    · simp only [h, ↓reduceIte]
      exact ⟨⟨d', hd', hlevel⟩, branchesFit_restrict hd hf hrest⟩

/-- A condition that fits the entity at the end of its path can be placed there. -/
theorem fits_place {c : Condition} : ∀ {via : List String} {t : RoutedTree} {e d : Entity}, t.Fits r e →
    r.reach? via e = some d → c.Fits d → (t.place c via).Fits r e
  | [], ⟨_, _, _, _, _, _⟩, e, d, ⟨hs, hc, ho, hb⟩, hd, hcd => by
    cases hd
    refine ⟨hs, fun x hx => ?_, ho, hb⟩
    rcases mem_addCondition hx with hx | rfl
    · exact hc x hx
    · exact hcd
  | head :: via, ⟨_, _, _, _, _, _⟩, e, d, ⟨hs, hc, ho, hb⟩, hd, hcd => by
    obtain ⟨next, hnext, hd⟩ := Registry.reach?_cons_eq_some.1 hd
    exact ⟨hs, hc, ho, branchesFit_restrict hnext (fun t ht => fits_place ht hd hcd) hb⟩

theorem fits_placeAll {e : Entity} : ∀ {filters : List Filter} {t : RoutedTree}, t.Fits r e →
    (∀ f ∈ filters, checkFilter r e f = .ok ()) → (t.placeAll filters).Fits r e
  | [], _, ht, _ => ht
  | f :: filters, t, ht, hf => by
    have hrest := fun g hg => hf g (List.mem_cons_of_mem f hg)
    show (RoutedTree.placeAll (if f.path.isDotted then t.place f.condition f.path.via else t) filters).Fits r e
    by_cases h : f.path.isDotted
    · obtain ⟨⟨d, hd, hfield⟩, hop⟩ := checkFilter_eq_ok.1 (hf f List.mem_cons_self)
      rw [if_pos h]
      exact fits_placeAll (fits_place ht hd ⟨hfield, hop⟩) hrest
    · rw [if_neg h]
      exact fits_placeAll ht hrest

/-- A filter that is not dotted fits where it is written. -/
theorem fits_plainConditions {e : Entity} {filters : List Filter} (h : ∀ f ∈ filters, checkFilter r e f = .ok ())
    {c : Condition} (hc : c ∈ plainConditions filters) : c.Fits e := by
  obtain ⟨f, hf, rfl⟩ := List.mem_map.1 hc
  obtain ⟨hf, hplain⟩ := List.mem_filter.1 hf
  obtain ⟨⟨d, hd, hfield⟩, hop⟩ := checkFilter_eq_ok.1 (h f hf)
  have hvia : f.path.via = [] := by simpa [FieldPath.isDotted] using hplain
  rw [hvia] at hd
  cases hd
  exact ⟨hfield, hop⟩

mutual

/-- A valid tree, routed, fits. -/
theorem fits_route : ∀ {t : ActionTree} {e : Entity}, validate r e t = .ok () → t.route.Fits r e
  | ⟨_, _, _, _, _, _, _⟩, e, h => by
    obtain ⟨hs, hr, hf, ho⟩ := validate_eq_ok.1 h
    rw [ActionTree.route]
    exact fits_placeAll ⟨hs, fun c hc => fits_plainConditions hf hc, ho, branchesFit_routeRelations hr⟩ hf

theorem branchesFit_routeRelations : ∀ {relations : List (String × ActionTree)} {e : Entity},
    validateRelations r e relations = .ok () → BranchesFit r e (ActionTree.routeRelations relations)
  | [], _, _ => trivial
  | (_, child) :: rest, e, h => by
    rw [validateRelations_eq_ok, List.forall_mem_cons, ← @validateRelations_eq_ok r e] at h
    obtain ⟨⟨d, hd, hc⟩, hr⟩ := h
    exact ⟨⟨d, hd, fits_route hc⟩, branchesFit_routeRelations hr⟩

end

end Routing

/-! ## Plans of trees that fit -/

mutual

/-- Every operator of a plan takes its operand. -/
def PlannedLevel.OperandsFit : PlannedLevel → Prop
  | ⟨_, _, _, conditions, _, _, _, relations⟩ =>
    (∀ c ∈ conditions, operandFault? c.operator c.value = none) ∧ JoinsOperandsFit relations

/-- Every operator behind some joins takes its operand. -/
def JoinsOperandsFit : List (JoinedLevel PlannedLevel) → Prop
  | [] => True
  | ⟨_, _, _, level⟩ :: rest => level.OperandsFit ∧ JoinsOperandsFit rest

end

section Planning

variable {r : Registry}

theorem joinsOperandsFit_append {a b : List (JoinedLevel PlannedLevel)} (ha : JoinsOperandsFit a)
    (hb : JoinsOperandsFit b) : JoinsOperandsFit (a ++ b) := by
  induction a with
  | nil => exact hb
  | cons j a ih => exact ⟨ha.1, ih ha.2⟩

mutual

theorem operandsFit_onlyConditions : ∀ {l : PlannedLevel}, l.OperandsFit → l.onlyConditions.OperandsFit
  | ⟨_, _, _, _, _, _, _, _⟩, ⟨hc, hr⟩ => ⟨hc, joinsOperandsFit_onlyRestricting hr⟩

theorem joinsOperandsFit_onlyRestricting : ∀ {joins : List (JoinedLevel PlannedLevel)}, JoinsOperandsFit joins →
    JoinsOperandsFit (PlannedLevel.onlyRestricting joins)
  | [], h => h
  | ⟨_, _, _, _⟩ :: _, ⟨hl, hr⟩ => by
    rw [PlannedLevel.onlyRestricting]
    split
    · exact ⟨operandsFit_onlyConditions hl, joinsOperandsFit_onlyRestricting hr⟩
    · exact joinsOperandsFit_onlyRestricting hr

end

theorem joinsOperandsFit_joinsOf {label : String} {rel : Relationship} {restricts : Bool} {level : PlannedLevel}
    (h : level.OperandsFit) : JoinsOperandsFit (joinsOf label rel restricts level) := by
  unfold joinsOf
  split
  · exact ⟨h, trivial⟩
  · split
    · exact ⟨operandsFit_onlyConditions h, h, trivial⟩
    · exact ⟨h, trivial⟩

/-- The conditions of a level that fits become conditions on columns whose operands fit. -/
theorem exists_columnConditions {e : Entity} {conditions : List Condition} (h : ∀ c ∈ conditions, c.Fits e) :
    ∃ cs, conditions.mapM (columnCondition e) = .ok cs ∧ ∀ c ∈ cs, operandFault? c.operator c.value = none := by
  have heach : ∀ c ∈ conditions, ∃ cc, columnCondition e c = .ok cc := fun c hc => by
    obtain ⟨f, hf⟩ := exists_columnCondition (h c hc).1
    exact ⟨_, hf⟩
  obtain ⟨cs, hcs⟩ := exists_mapM_eq_ok heach
  refine ⟨cs, hcs, fun cc hcc => ?_⟩
  obtain ⟨c, hc, hcc⟩ := mem_of_mapM_eq_ok hcs hcc
  obtain ⟨_, hop, hvalue⟩ := columnCondition_eq_ok.1 hcc
  rw [hop, hvalue]
  exact (h c hc).2

mutual

/-- A routed tree that fits has a plan, and the operands of the plan fit. -/
theorem exists_plan_of_fits : ∀ {t : RoutedTree} {e : Entity}, t.Fits r e → ∃ p, t.plan r e = .ok p ∧ p.OperandsFit
  | ⟨select, conditions, sort, limit, offset, branches⟩, e, ⟨hs, hc, ho, hb⟩ => by
    obtain ⟨cs, hcs, hops⟩ := exists_columnConditions hc
    obtain ⟨fields, hfields⟩ := exists_selectedFields hs
    obtain ⟨sorting, hsorting⟩ := exists_columnSorting ho
    obtain ⟨joins, hjoins, hfit⟩ := exists_planBranches_of_fit hb
    exact ⟨_, RoutedTree.plan_eq_ok.2 ⟨cs, fields, sorting, joins, hcs, hfields, hsorting, hjoins, rfl⟩, hops, hfit⟩

theorem exists_planBranches_of_fit : ∀ {branches : List (Branch RoutedTree)} {e : Entity}, BranchesFit r e branches →
    ∃ joins, RoutedTree.planBranches r e branches = .ok joins ∧ JoinsOperandsFit joins
  | [], _, _ => ⟨[], rfl, trivial⟩
  | ⟨label, restricts, level⟩ :: rest, e, ⟨⟨d, hd, hlevel⟩, hrest⟩ => by
    obtain ⟨rel, hrel, htarget⟩ := Registry.follow?_eq_some.1 hd
    obtain ⟨inner, hinner, hfit⟩ := exists_plan_of_fits hlevel
    obtain ⟨later, hlater, hlaterFit⟩ := exists_planBranches_of_fit hrest
    refine ⟨_, RoutedTree.planBranches_cons_eq_ok.2 ⟨rel, d, inner, later, hrel, htarget, hinner, hlater, rfl⟩, ?_⟩
    exact joinsOperandsFit_append (joinsOperandsFit_joinsOf hfit) hlaterFit

end

end Planning

/-! ## Selects of plans whose operands fit -/

/-- A result or, if a many-to-many relationship is in the way, its refusal. -/
def RefusesMany {α : Type} : (many : Bool) → Except Error α → Prop
  | true, x => ∃ entity label, x = .error (.uncompilable (.manyToMany entity label))
  | false, x => ∃ a, x = .ok a

namespace RefusesMany

variable {α β : Type} {many many' : Bool}

/-- Of two steps, the first one in whose way a relationship is refuses it. -/
theorem bind {x : Except Error α} {f : α → Except Error β} (hx : RefusesMany many x)
    (hf : ∀ a, x = .ok a → RefusesMany many' (f a)) : RefusesMany (many || many') (x >>= f) := by
  cases many with
  | true =>
    obtain ⟨entity, label, rfl⟩ := hx
    exact ⟨entity, label, rfl⟩
  | false =>
    obtain ⟨a, rfl⟩ := hx
    exact hf a rfl

theorem of_ok {a : α} : RefusesMany false (.ok a : Except Error α) := ⟨a, rfl⟩

end RefusesMany

/-- A condition whose operator takes its operand has a test. -/
theorem exists_conditionExpr (table : String) {c : ColumnCondition}
    (h : operandFault? c.operator c.value = none) : ∃ test, conditionExpr table c = .ok test := by
  obtain ⟨field, op, value⟩ := c
  have hcompare : ∀ sqlOp, value.isList = false →
      ∃ test, compareExpr (.column table field.column) op sqlOp value = .ok test := fun sqlOp hlist =>
    ⟨_, by rw [compareExpr, hlist]; rfl⟩
  cases op with
  | compare c =>
    refine hcompare _ ?_
    cases hlist : value.isList with
    | false => rfl
    | true => cases c <;> simp [operandFault?, Comparison.isOrdering, hlist] at h
  | oneOf => exact ⟨_, rfl⟩
  | isNull =>
    cases value with
    | int flag => exact ⟨_, rfl⟩
    | float _ | date _ | string _ | list _ => cases h
  | like =>
    cases value with
    | string s => exact ⟨_, rfl⟩
    | int _ | float _ | date _ | list _ => cases h
  | ilike =>
    cases value with
    | string s => exact ⟨_, rfl⟩
    | int _ | float _ | date _ | list _ => cases h

mutual

/-- A level whose operands fit compiles, unless it crosses a many-to-many relationship. -/
theorem select_outcome : ∀ (l : PlannedLevel) (n : Nat) (position : Standing), l.OperandsFit →
    RefusesMany l.crossesMany (l.select n position)
  | ⟨entity, output, fields, conditions, sort, limit, offset, relations⟩, n, position, ⟨hc, hr⟩ => by
    rw [PlannedLevel.select, PlannedLevel.crossesMany, ← Bool.or_false (joinsCrossMany relations)]
    refine (attachments_outcome relations entity (tableAlias n) (n + 1) hr).bind fun _ _ => ?_
    obtain ⟨tests, htests⟩ := exists_mapM_eq_ok fun c hm => exists_conditionExpr (tableAlias n) (hc c hm)
    rw [htests]
    exact .of_ok

theorem attachments_outcome : ∀ (joins : List (JoinedLevel PlannedLevel)) (entity : Entity) (table : String) (n : Nat),
    JoinsOperandsFit joins → RefusesMany (joinsCrossMany joins) (attachments entity table n joins)
  | [], _, _, _, _ => .of_ok
  | ⟨label, relationship, kind, level⟩ :: rest, entity, table, n, ⟨hl, hr⟩ => by
    rw [attachments_cons, joinsCrossMany]
    by_cases hmany : relationship.direction = .manyToMany
    · rw [if_pos hmany, hmany]
      exact ⟨entity.name, label, rfl⟩
    · rw [if_neg hmany, beq_false_of_ne hmany, Bool.false_or]
      refine (select_outcome level n _ hl).bind fun inner _ => ?_
      rw [← Bool.or_false (joinsCrossMany rest)]
      exact (attachments_outcome rest entity table _ hr).bind fun _ _ => .of_ok

end

/-! ## From text to statement -/

/-- A valid tree has a plan, and compiles unless it speaks of a many-to-many relationship. -/
theorem compile_outcome {r : Registry} {e : Entity} {t : ActionTree} (h : validate r e t = .ok ()) :
    (∃ p, t.plan r e = .ok p) ∧ RefusesMany (t.crossesMany r e) (t.compile r e) := by
  obtain ⟨p, hp, hfit⟩ := exists_plan_of_fits (fits_route h)
  have hmany : p.crossesMany = t.crossesMany r e := (crossesMany_of_plan t.route hp).trans (crossesMany_route t e)
  refine ⟨⟨p, hp⟩, ?_⟩
  rw [ActionTree.compile, show t.plan r e = .ok p from hp, ok_bind, ← hmany, ← Bool.or_false p.crossesMany]
  exact (select_outcome p 0 .root hfit).bind fun _ _ => .of_ok

/-- Over a registry that passes its check, a text fails for its own sake, or for a many-to-many relationship. -/
theorem ofText_outcome {r : Registry} (hcheck : r.check = .ok ()) {name text : String} {err : Error}
    (h : Query.ofText r name text = .error err) : err.OfQuery ∨ ∃ e t, r.require name = .ok e ∧
      ActionTree.ofText text = .ok t ∧ validate r e t = .ok () ∧ t.crossesMany r e = true ∧
      ∃ entity label, err = .uncompilable (.manyToMany entity label) := by
  rcases bind_eq_error.1 h with h | ⟨e, he, h⟩
  · exact .inl (.inr (require_eq_error h))
  rcases bind_eq_error.1 h with h | ⟨t, ht, h⟩
  · exact .inl (ofText_eq_error h)
  rcases bind_eq_error.1 h with h | ⟨_, hvalid, h⟩
  · exact .inl (.inr (validate_eq_error (closed_of_check hcheck) (closed_of_check hcheck (require_eq_ok.1 he)) h))
  · have hcompile := (compile_outcome hvalid).2
    cases hmany : t.crossesMany r e with
    | true =>
      rw [hmany, h] at hcompile
      obtain ⟨entity, label, herr⟩ := hcompile
      cases herr
      exact .inr ⟨e, t, he, ht, hvalid, hmany, entity, label, rfl⟩
    | false =>
      rw [hmany, h] at hcompile
      obtain ⟨_, hq⟩ := hcompile
      cases hq

/-- **Validation is enough.** A valid tree has a plan; it compiles if it speaks of no many-to-many relationship, and
such a relationship is what is refused otherwise. Over a registry that passes its check, a text therefore fails for
its own sake, or for a many-to-many relationship of its valid tree. -/
theorem validate_suffices (r : Registry) :
    (∀ (e : Entity) (t : ActionTree), validate r e t = .ok () →
      (∃ p, t.plan r e = .ok p) ∧
        (t.crossesMany r e = false → ∃ q, t.compile r e = .ok q) ∧
        (t.crossesMany r e = true →
          ∃ entity label, t.compile r e = .error (.uncompilable (.manyToMany entity label)))) ∧
    (r.check = .ok () → ∀ (name text : String) (err : Error), Query.ofText r name text = .error err →
      (err.OfQuery ∧ err.blame = .client ∧ err.status = 422) ∨
        ∃ e t, r.require name = .ok e ∧ ActionTree.ofText text = .ok t ∧ validate r e t = .ok () ∧
          t.crossesMany r e = true ∧ ∃ entity label, err = .uncompilable (.manyToMany entity label)) := by
  refine ⟨fun e t h => ?_, fun hcheck name text err h => ?_⟩
  · obtain ⟨hplan, hcompile⟩ := compile_outcome h
    refine ⟨hplan, fun hmany => ?_, fun hmany => ?_⟩
    · rw [hmany] at hcompile
      exact hcompile
    · rw [hmany] at hcompile
      exact hcompile
  · rcases ofText_outcome hcheck h with h | h
    · exact .inl ⟨h, h.status⟩
    · exact .inr h

/-- Tasks with a step that has a peer with a certain label. -/
def tasksByPeers : ActionTree :=
  { ActionTree.empty with filters := [⟨⟨["steps", "peers"], "label"⟩, .like, .string "a%"⟩] }

theorem validate_suffices_peers :
    (validate taskRegistry taskEntity tasksByPeers = .ok () ∧
      (∃ p, tasksByPeers.plan taskRegistry taskEntity = .ok p) ∧
      ∃ entity label,
        tasksByPeers.compile taskRegistry taskEntity = .error (.uncompilable (.manyToMany entity label))) ∧
    taskRegistry.check = .ok () ∧
    ∃ err, Query.ofText taskRegistry "task" "q=(id, steps(name))" = .error err ∧
      ((err.OfQuery ∧ err.blame = .client ∧ err.status = 422) ∨
        ∃ e t, taskRegistry.require "task" = .ok e ∧ ActionTree.ofText "q=(id, steps(name))" = .ok t ∧
          validate taskRegistry e t = .ok () ∧ t.crossesMany taskRegistry e = true ∧
          ∃ entity label, err = .uncompilable (.manyToMany entity label)) := by
  have hvalid : validate taskRegistry taskEntity tasksByPeers = .ok () := rfl
  have hcheck : taskRegistry.check = .ok () := rfl
  have hunknown : Query.ofText taskRegistry "task" "q=(id, steps(name))" =
      .error (.invalid (.unknownName .field "name" "step" none)) := by
    have htext : ActionTree.ofText "q=(id, steps(name))" = .ok { ActionTree.empty with
        select := .fields [.field "id"]
        relations := [("steps", { ActionTree.empty with name := some "steps", select := .fields [.field "name"] })] } :=
      ActionTree.ofText_eq_ok.2 ⟨⟨[.name "id", .relation "steps" ⟨[.name "name"], []⟩], []⟩, rfl, rfl⟩
    rw [Query.ofText, htext]
    rfl
  obtain ⟨hplan, _, hmany⟩ := (validate_suffices taskRegistry).1 taskEntity tasksByPeers hvalid
  exact ⟨⟨hvalid, hplan, hmany rfl⟩, hcheck, _, hunknown, (validate_suffices taskRegistry).2 hcheck _ _ _ hunknown⟩

end TreeQuery
