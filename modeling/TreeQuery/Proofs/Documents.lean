import TreeQuery.Proofs.DateText
import TreeQuery.Proofs.Everywhere
import TreeQuery.Proofs.Json.Parts

/-!
# Trees from documents

The document of a tree is read as the tree (`ofJson?_toJson`), if no two relations of a level have one name, no float
is among its values, and as many containers may be opened as the document nests. Nothing else is asked of it: names
may differ from the relations that lead to them, and relations keep their order.

One theorem for each kind of document says so, from values to trees. That the document has a text as well is
`writable_toJson`.
-/

namespace TreeQuery

open Json (tagged ofMembers nesting itemsNesting membersNesting Writable choice?_tagged choice?_ofText text?_ofText)

/-! ## Values -/

namespace Value

mutual

/-- Whether no float is in a value. -/
def isFloatless : Value → Bool
  | .float _ => false
  | .list items => allFloatless items
  | _ => true

/-- Whether no float is in some values. -/
def allFloatless : List Value → Bool
  | [] => true
  | v :: rest => v.isFloatless && allFloatless rest

end

mutual

theorem writable_toJson : ∀ {v : Value}, v.isFloatless = true → v.toJson.Writable
  | .int n, _ => Json.writable_tagged (Json.writable_ofInt n.toInt) "Int"
  | .date d, _ => Json.writable_tagged (Json.writable_ofText d.text) "Date"
  | .string s, _ => Json.writable_tagged (Json.writable_ofText s) "String"
  | .list _, h => Json.writable_tagged (.array (writable_toJsonAll h)) "List"

theorem writable_toJsonAll : ∀ {items : List Value}, allFloatless items = true →
    ∀ j ∈ toJsonAll items, j.Writable
  | [], _, _, hj => nomatch hj
  | v :: rest, h, j, hj => by
    rw [allFloatless, Bool.and_eq_true] at h
    rcases List.mem_cons.1 hj with rfl | hj
    · exact writable_toJson h.1
    · exact writable_toJsonAll h.2 j hj

end

mutual

/-- A value without floats is read back, if its document may be as deep as it is. -/
theorem ofJson?_toJson : ∀ {v : Value} {depth : Nat}, v.isFloatless = true → v.toJson.nesting ≤ depth →
    ofJson? depth v.toJson = some v
  | .int n, depth + 1, _, _ => by
    rw [toJson, tagged, ofMembers, ofJson?.eq_def]
    simp [Json.toText?_codePoints, Json.ofInt, Number.Literal.int64?_ofInt]
  | .date d, depth + 1, _, _ => by
    rw [toJson, tagged, ofMembers, ofJson?.eq_def]
    simp [Json.toText?_codePoints, Date.ofText?_text]
  | .string s, depth + 1, _, _ => by
    rw [toJson, tagged, ofMembers, ofJson?.eq_def]
    simp [Json.toText?_codePoints]
  | .list items, depth + 2, h, hdepth => by
    have hitems : itemsNesting (toJsonAll items) ≤ depth := by
      simp only [toJson, Json.nesting_tagged, nesting] at hdepth
      omega
    have hread := mapM_ofJson?_toJsonAll h hitems
    rw [toJson, tagged, ofMembers, ofJson?.eq_def]
    simp [Json.toText?_codePoints, Json.items?, hread]
  | .list items, 1, _, hdepth => by simp [toJson, nesting] at hdepth
  | .int _, 0, _, hdepth | .date _, 0, _, hdepth | .string _, 0, _, hdepth | .list _, 0, _, hdepth => by
    simp [toJson] at hdepth

theorem mapM_ofJson?_toJsonAll : ∀ {items : List Value} {depth : Nat}, allFloatless items = true →
    itemsNesting (toJsonAll items) ≤ depth → (toJsonAll items).mapM (ofJson? depth) = some items
  | [], _, _, _ => rfl
  | v :: rest, depth, h, hdepth => by
    rw [allFloatless, Bool.and_eq_true] at h
    rw [toJsonAll, itemsNesting] at hdepth
    have hv : ofJson? depth v.toJson = some v := ofJson?_toJson h.1 (by omega)
    have hrest := mapM_ofJson?_toJsonAll h.2 (show itemsNesting (toJsonAll rest) ≤ depth by omega)
    rw [toJsonAll, List.mapM_cons, hv, hrest]
    rfl

end

end Value

/-! ## Parts of a level -/

theorem Operator.ofJson?_ofText (op : Operator) (depth : Nat) : ofJson? depth (.ofText op.tag) = some op := by
  rw [ofJson?, Json.choiceOf?_ofText]
  cases op with
  | compare comparison => cases comparison <;> rfl
  | oneOf | isNull | like | ilike => rfl

theorem SortOrder.ofJson?_ofText (order : SortOrder) (depth : Nat) :
    ofJson? depth (.ofText order.tag) = some order := by
  rw [ofJson?, Json.choiceOf?_ofText]
  cases order <;> rfl

theorem FieldPath.writable_toJson (p : FieldPath) : p.toJson.Writable := by
  unfold toJson
  split
  · exact Json.writable_tagged (Json.writable_items fun s _ => Json.writable_ofText s) "Nested"
  · exact Json.writable_tagged (Json.writable_ofText p.field) "Plain"

/-- A path is read back; a dotted one has two segments or more. -/
theorem FieldPath.ofJson?_toJson {p : FieldPath} {depth : Nat} (hdepth : p.toJson.nesting ≤ depth) :
    ofJson? depth p.toJson = some p := by
  unfold toJson at hdepth ⊢
  split at hdepth
  · rename_i hdotted
    rw [Json.nesting_tagged, nesting] at hdepth
    obtain ⟨d, rfl⟩ : ∃ d, depth = d + 2 := ⟨depth - 2, by omega⟩
    have htexts : (p.segments.map Json.ofText).mapM Json.text? = some p.segments :=
      Json.mapM_map_eq_some fun s _ => text?_ofText s
    have htwo : 2 ≤ p.segments.length := by
      have hvia : p.via ≠ [] := by simpa [isDotted] using hdotted
      have hpos := List.length_pos_of_ne_nil hvia
      simp only [segments, List.length_append, List.length_cons, List.length_nil]
      omega
    rw [if_pos hdotted, ofJson?]
    simp [Json.items?, htexts, ofDotted?, htwo, ofSegments?_segments]
  · rename_i hplain
    rw [Json.nesting_tagged, Json.nesting_ofText] at hdepth
    obtain ⟨d, rfl⟩ : ∃ d, depth = d + 1 := ⟨depth - 1, by omega⟩
    have hvia : p.via = [] := by simpa [isDotted] using hplain
    rw [if_neg hplain, ofJson?]
    simp [← hvia]

theorem Filter.writable_toJson {f : Filter} (h : f.value.isFloatless = true) : f.toJson.Writable := by
  apply Json.writable_ofMembers
  intro m hm
  simp only [List.mem_cons, List.not_mem_nil, or_false] at hm
  rcases hm with rfl | rfl | rfl
  · exact f.path.writable_toJson
  · exact Json.writable_ofText f.operator.tag
  · exact Value.writable_toJson h

theorem Filter.ofJson?_toJson {f : Filter} {depth : Nat} (h : f.value.isFloatless = true)
    (hdepth : f.toJson.nesting ≤ depth) : ofJson? depth f.toJson = some f := by
  have hparts : Json.parts? ["field", "operator", "value"] f.toJson =
      some [some f.path.toJson, some (.ofText f.operator.tag), some f.value.toJson] :=
    Json.parts?_ofMembers (by decide)
      [("field", f.path.toJson), ("operator", .ofText f.operator.tag), ("value", f.value.toJson)] rfl
  have hnesting : f.toJson.nesting = max f.path.toJson.nesting (max 0 (max f.value.toJson.nesting 0)) + 1 := rfl
  obtain ⟨d, rfl⟩ : ∃ d, depth = d + 1 := ⟨depth - 1, by omega⟩
  have hpath : FieldPath.ofJson? d f.path.toJson = some f.path := FieldPath.ofJson?_toJson (by omega)
  have hop : Operator.ofJson? d (.ofText f.operator.tag) = some f.operator := f.operator.ofJson?_ofText d
  have hvalue : Value.ofJson? d f.value.toJson = some f.value := Value.ofJson?_toJson h (by omega)
  have henter : enter? (d + 1) f.toJson = some d := rfl
  rw [ofJson?, henter]
  simp only [Option.bind_eq_bind, Option.bind_some, hparts, hpath, hop, hvalue]
  rfl

theorem Selector.writable_toJson (s : Selector) : s.toJson.Writable := by
  cases s with
  | field label => exact Json.writable_tagged (Json.writable_ofText label) "Field"
  | wildcard => exact Json.writable_ofText "Wildcard"
  | exclude label => exact Json.writable_tagged (Json.writable_ofText label) "Exclude"

theorem Selector.ofJson?_toJson {s : Selector} {depth : Nat} (hdepth : s.toJson.nesting ≤ depth) :
    ofJson? depth s.toJson = some s := by
  cases s with
  | field label | exclude label =>
    rw [toJson, Json.nesting_tagged] at hdepth
    obtain ⟨d, rfl⟩ : ∃ d, depth = d + 1 := ⟨depth - 1, by omega⟩
    simp [toJson, ofJson?]
  | wildcard => simp [toJson, ofJson?, Json.bareChoice?]

theorem Selection.writable_toJson (s : Selection) : s.toJson.Writable := by
  cases s with
  | fields selectors => exact Json.writable_tagged (Json.writable_items fun s _ => s.writable_toJson) "Fields"
  | unselected => exact Json.writable_ofText "FilterOnly"

theorem Selection.ofJson?_toJson {s : Selection} {depth : Nat} (hdepth : s.toJson.nesting ≤ depth) :
    ofJson? depth s.toJson = some s := by
  cases s with
  | fields selectors =>
    rw [toJson, Json.nesting_tagged, nesting] at hdepth
    obtain ⟨d, rfl⟩ : ∃ d, depth = d + 2 := ⟨depth - 2, by omega⟩
    have hselectors : (selectors.map Selector.toJson).mapM (Selector.ofJson? d) = some selectors := by
      apply Json.mapM_map_eq_some
      intro s hs
      have hle := Json.nesting_le_of_mem (List.mem_map_of_mem (f := Selector.toJson) hs)
      exact Selector.ofJson?_toJson (by omega)
    simp [toJson, ofJson?, Json.items?, hselectors, -List.mapM_map]
  | unselected => simp [toJson, ofJson?, Json.bareChoice?]

theorem Sorting.writable_toJson (s : Sorting) : s.toJson.Writable := by
  apply Json.writable_ofMembers
  intro m hm
  simp only [List.mem_cons, List.not_mem_nil, or_false] at hm
  rcases hm with rfl | rfl
  · exact Json.writable_ofText s.field
  · exact Json.writable_ofText s.order.tag

theorem Sorting.ofJson?_toJson (s : Sorting) (depth : Nat) : ofJson? (depth + 1) s.toJson = some s := by
  have hparts : Json.parts? ["field", "order"] s.toJson = some [some (.ofText s.field), some (.ofText s.order.tag)] :=
    Json.parts?_ofMembers (by decide) [("field", .ofText s.field), ("order", .ofText s.order.tag)] rfl
  have horder : SortOrder.ofJson? depth (.ofText s.order.tag) = some s.order := s.order.ofJson?_ofText depth
  have henter : enter? (depth + 1) s.toJson = some depth := rfl
  rw [ofJson?, henter]
  simp only [Option.bind_eq_bind, Option.bind_some, hparts, text?_ofText, horder]
  rfl

theorem countOfJson?_countJson (n : UInt64) : countOfJson? (countJson n) = some n := Number.Literal.uint64?_ofInt n

/-- What may be absent is read back, if what it is written as is never null. -/
theorem missing?_optionalJson {α : Type} {f : α → Json} {g : Json → Option α} {a : Option α}
    (hnull : ∀ a, f a ≠ .null) (hread : ∀ b ∈ a, g (f b) = some b) : missing? g (some (optionalJson f a)) = some a := by
  cases a with
  | none => rfl
  | some b =>
    have hb : g (f b) = some b := hread b rfl
    show Json.optional? g (f b) = _
    unfold Json.optional?
    split
    · rename_i h
      exact absurd h (hnull b)
    · rw [hb]
      rfl

/-! ## Trees -/

namespace ActionTree

/-- No filter of a level compares with a float. -/
def Floatless (t : ActionTree) : Prop := ∀ f ∈ t.filters, f.value.isFloatless = true

theorem toJson_eq : ∀ t : ActionTree, t.toJson = ofMembers
    [("name", optionalJson .ofText t.name), ("select", t.select.toJson),
      ("filters", .array (t.filters.map Filter.toJson)), ("sort", optionalJson Sorting.toJson t.sort),
      ("limit", optionalJson countJson t.limit), ("offset", optionalJson countJson t.offset),
      ("relations", .object (relationsJson t.relations))] := by
  rintro ⟨⟩
  rfl

theorem mem_relationsJson {relations : List (String × ActionTree)} {m : Json.Text × Json} :
    m ∈ relationsJson relations ↔ ∃ p ∈ relations, m = (Json.codePoints p.1, p.2.toJson) := by
  induction relations with
  | nil => simp [relationsJson]
  | cons p rest ih =>
    obtain ⟨label, child⟩ := p
    rw [relationsJson, List.mem_cons, ih, List.exists_mem_cons_iff]

/-- The document of a tree without floats has a text. -/
theorem writable_toJson {t : ActionTree} (h : t.Everywhere Floatless) : t.toJson.Writable := by
  induction h with
  | @intro t here _ ih =>
    rw [toJson_eq]
    apply Json.writable_ofMembers
    intro m hm
    simp only [List.mem_cons, List.not_mem_nil, or_false] at hm
    rcases hm with rfl | rfl | rfl | rfl | rfl | rfl | rfl
    · exact Json.writable_optionalJson Json.writable_ofText t.name
    · exact t.select.writable_toJson
    · exact Json.writable_items fun f hf => Filter.writable_toJson (here f hf)
    · exact Json.writable_optionalJson Sorting.writable_toJson t.sort
    · exact Json.writable_optionalJson (fun n => Json.writable_ofInt n.toNat) t.limit
    · exact Json.writable_optionalJson (fun n => Json.writable_ofInt n.toNat) t.offset
    · apply Writable.object
      · intro m hm
        obtain ⟨p, _, rfl⟩ := mem_relationsJson.1 hm
        exact Json.isText_codePoints p.1
      · intro m hm
        obtain ⟨p, hp, rfl⟩ := mem_relationsJson.1 hm
        exact ih p hp

theorem nesting_toJson (t : ActionTree) : t.toJson.nesting =
    max (optionalJson Json.ofText t.name).nesting (max t.select.toJson.nesting
      (max (itemsNesting (t.filters.map Filter.toJson) + 1) (max (optionalJson Sorting.toJson t.sort).nesting
        (max (optionalJson countJson t.limit).nesting (max (optionalJson countJson t.offset).nesting
          (max (membersNesting (relationsJson t.relations) + 1) 0)))))) + 1 := by
  rw [toJson_eq]
  rfl

/-- Reads a member as a relation with the level behind it. -/
def memberOfJson? (depth : Nat) (m : Json.Text × Json) : Option (String × ActionTree) := do
  return (← Json.toText? m.1, ← ofJson? depth m.2)

theorem memberOfJson?_eq_some {depth : Nat} {m : Json.Text × Json} {p : String × ActionTree} :
    memberOfJson? depth m = some p ↔ Json.toText? m.1 = some p.1 ∧ ofJson? depth m.2 = some p.2 := by
  obtain ⟨label, child⟩ := p
  unfold memberOfJson?
  simp only [Option.bind_eq_bind, Option.bind_eq_some_iff, Option.pure_def, Option.some.injEq, Prod.mk.injEq]
  constructor
  · rintro ⟨_, hlabel, _, hchild, rfl, rfl⟩
    exact ⟨hlabel, hchild⟩
  · rintro ⟨hlabel, hchild⟩
    exact ⟨label, hlabel, child, hchild, rfl, rfl⟩

/-- What a document has to say for it to be read as a tree. -/
theorem ofJson?_eq_some {depth : Nat} {j : Json} {t : ActionTree} : ofJson? depth j = some t ↔
    ∃ d name select filters sort limit offset members relations, depth = d + 2 ∧
      Json.parts? memberNames j =
        some [name, some select, some filters, sort, limit, offset, some (.object members)] ∧
      members.mapM (memberOfJson? d) = some relations ∧ missing? Json.text? name = some t.name ∧
      Selection.ofJson? (d + 1) select = some t.select ∧
      listOfJson? Filter.ofJson? (d + 1) filters = some t.filters ∧
      missing? (Sorting.ofJson? (d + 1)) sort = some t.sort ∧ missing? countOfJson? limit = some t.limit ∧
      missing? countOfJson? offset = some t.offset ∧ Keyed.ofPairs relations = t.relations := by
  constructor
  · intro h
    rw [ofJson?.eq_def] at h
    split at h
    · rename_i d
      obtain ⟨parts, hparts, h⟩ := Option.bind_eq_some_iff.1 h
      split at h
      · obtain ⟨relations, hrelations, h⟩ := Option.bind_eq_some_iff.1 h
        obtain ⟨name, hname, h⟩ := Option.bind_eq_some_iff.1 h
        obtain ⟨select, hselect, h⟩ := Option.bind_eq_some_iff.1 h
        obtain ⟨filters, hfilters, h⟩ := Option.bind_eq_some_iff.1 h
        obtain ⟨sort, hsort, h⟩ := Option.bind_eq_some_iff.1 h
        obtain ⟨limit, hlimit, h⟩ := Option.bind_eq_some_iff.1 h
        obtain ⟨offset, hoffset, h⟩ := Option.bind_eq_some_iff.1 h
        cases h
        exact ⟨d, _, _, _, _, _, _, _, relations, rfl, hparts, hrelations, hname, hselect, hfilters, hsort, hlimit,
          hoffset, rfl⟩
      · cases h
    · cases h
  · obtain ⟨name, select, filters, sort, limit, offset, relations⟩ := t
    rintro ⟨d, _, _, _, _, _, _, members, read, rfl, hparts, hrelations, hname, hselect, hfilters, hsort, hlimit,
      hoffset, hpairs⟩
    rw [ofJson?, hparts]
    simp only [Option.bind_eq_bind, Option.bind_some]
    change (members.mapM (memberOfJson? d)).bind _ = _
    simp only [hrelations, Option.bind_some, hname, hselect, hfilters, hsort, hlimit, hoffset, hpairs]
    rfl
mutual

/-- The document of a tree is read as the tree. -/
theorem ofJson?_toJson : ∀ {t : ActionTree} {depth : Nat}, t.Everywhere KeysDiffer → t.Everywhere Floatless →
    t.toJson.nesting ≤ depth → ofJson? depth t.toJson = some t
  | ⟨name, select, filters, sort, limit, offset, relations⟩, depth, hkeys, hvalues, hdepth => by
    rw [nesting_toJson] at hdepth
    obtain ⟨d, rfl⟩ : ∃ d, depth = d + 2 := ⟨depth - 2, by omega⟩
    simp only at hdepth
    have hparts : Json.parts? memberNames (toJson ⟨name, select, filters, sort, limit, offset, relations⟩) =
        some [some (optionalJson .ofText name), some select.toJson, some (.array (filters.map Filter.toJson)),
          some (optionalJson Sorting.toJson sort), some (optionalJson countJson limit),
          some (optionalJson countJson offset), some (.object (relationsJson relations))] :=
      Json.parts?_ofMembers (by decide) [(_, _), (_, _), (_, _), (_, _), (_, _), (_, _), (_, _)] rfl
    have hname : missing? Json.text? (some (optionalJson .ofText name)) = some name :=
      missing?_optionalJson nofun fun s _ => text?_ofText s
    have hselect : Selection.ofJson? (d + 1) select.toJson = some select := Selection.ofJson?_toJson (by omega)
    have hfilters : listOfJson? Filter.ofJson? (d + 1) (.array (filters.map Filter.toJson)) = some filters := by
      have hitems : (filters.map Filter.toJson).mapM (Filter.ofJson? d) = some filters := by
        apply Json.mapM_map_eq_some
        intro f hf
        have hle := Json.nesting_le_of_mem (List.mem_map_of_mem (f := Filter.toJson) hf)
        exact Filter.ofJson?_toJson (hvalues.here f hf) (by omega)
      rw [listOfJson?, Json.enter?_array]
      exact hitems
    have hsort : missing? (Sorting.ofJson? (d + 1)) (some (optionalJson Sorting.toJson sort)) = some sort :=
      missing?_optionalJson nofun fun s _ => s.ofJson?_toJson d
    have hcount (count : Option UInt64) : missing? countOfJson? (some (optionalJson countJson count)) = some count :=
      missing?_optionalJson nofun fun n _ => countOfJson?_countJson n
    have hrelations : (relationsJson relations).mapM (memberOfJson? d) = some relations :=
      mapM_relationsJson hkeys.inside hvalues.inside (by omega)
    have hpairs : Keyed.ofPairs relations = relations := Keyed.ofPairs_of_nodup hkeys.here
    exact ofJson?_eq_some.2 ⟨d, _, _, _, _, _, _, _, relations, rfl, hparts, hrelations, hname, hselect, hfilters,
      hsort, hcount limit, hcount offset, hpairs⟩

theorem mapM_relationsJson : ∀ {relations : List (String × ActionTree)} {depth : Nat},
    (∀ p ∈ relations, p.2.Everywhere KeysDiffer) → (∀ p ∈ relations, p.2.Everywhere Floatless) →
      membersNesting (relationsJson relations) ≤ depth →
        (relationsJson relations).mapM (memberOfJson? depth) = some relations
  | [], _, _, _, _ => rfl
  | (label, child) :: rest, depth, hkeys, hvalues, hdepth => by
    rw [relationsJson, membersNesting] at hdepth
    have hchild : ofJson? depth child.toJson = some child :=
      ofJson?_toJson (hkeys _ List.mem_cons_self) (hvalues _ List.mem_cons_self) (by omega)
    have hmember : memberOfJson? depth (Json.codePoints label, child.toJson) = some (label, child) :=
      memberOfJson?_eq_some.2 ⟨Json.toText?_codePoints label, hchild⟩
    have hrest := mapM_relationsJson (fun p hp => hkeys p (List.mem_cons_of_mem _ hp))
      (fun p hp => hvalues p (List.mem_cons_of_mem _ hp)) (show membersNesting (relationsJson rest) ≤ depth by omega)
    rw [relationsJson, List.mapM_cons, hmember, hrest]
    rfl

end

end ActionTree

end TreeQuery
