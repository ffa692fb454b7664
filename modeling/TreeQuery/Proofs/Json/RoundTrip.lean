import TreeQuery.Proofs.Json.Tokens

/-!
# Reading what was written

The compact text of a document is read as the document (`read?_text`), if its strings are made of characters and its
numbers are written as JSON writes numbers (`Writable`).

A reader in some state goes on with a text (`State.run?`). The text of a document takes it from any place where a
document may come to the state after that document (`Reads`), and this follows for a container from the documents in
it: one item after the other (`run_items`), one member after the other (`run_members`).
-/

namespace TreeQuery.Json

/-- A document that has a text: strings of characters, and numbers as JSON allows them. -/
inductive Writable : Json → Prop
  | null : Writable .null
  | bool (b : Bool) : Writable (.bool b)
  | number {l : Number.Literal} (hl : IsNumber l) : Writable (.number l)
  | string {t : Text} (ht : IsText t) : Writable (.string t)
  | array {items : List Json} (hitems : ∀ j ∈ items, Writable j) : Writable (.array items)
  | object {members : List (Text × Json)} (hnames : ∀ m ∈ members, IsText m.1)
      (hvalues : ∀ m ∈ members, Writable m.2) : Writable (.object members)

/-! ## Runs -/

/-- The state of a reader after the tokens of a text. -/
def State.run? (s : State) (cs : List Char) : Option State := (tokens? cs 0).bind (advance? s)

/-- A token takes the reader one step on. -/
theorem State.run?_of_scans {s s' : State} {cs rest : List Char} {token : Token} (hscans : Scans cs token rest)
    (hstep : s.step? token = some s') : s.run? cs = s'.run? rest := by
  unfold State.run?
  rw [hscans]
  cases tokens? rest 0 with
  | none => rfl
  | some tokens =>
    rw [Option.map_some, Option.bind_some, Option.bind_some, advance?, hstep, Option.bind_some]

/-- States with the same next step have the same runs. -/
theorem State.run?_congr {s s' : State} {cs rest : List Char} {token : Token} (hscans : Scans cs token rest)
    (hstep : s.step? token = s'.step? token) : s.run? cs = s'.run? cs := by
  unfold State.run?
  rw [hscans]
  cases tokens? rest 0 with
  | none => rfl
  | some tokens => rw [Option.map_some, Option.bind_some, Option.bind_some, advance?, advance?, hstep]

/-- The text of a document takes the reader to where the document is complete. -/
def Reads (j : Json) : Prop :=
  ∀ (outer : List Open) (rest : List Char), Stops rest →
    (State.value outer).run? (j.chars ++ rest) = (complete j outer).run? rest

theorem stops_comma (rest : List Char) : Stops (',' :: rest) := stops_cons (by decide) rest

theorem stops_closeBracket (rest : List Char) : Stops (']' :: rest) := stops_cons (by decide) rest

theorem stops_closeBrace (rest : List Char) : Stops ('\x7d' :: rest) := stops_cons (by decide) rest

/-- A document starts with a token that does not close an array. -/
theorem exists_scans {j : Json} (hj : j.Writable) {rest : List Char} (hrest : Stops rest) :
    ∃ token more, Scans (j.chars ++ rest) token more ∧ token ≠ .closeBracket := by
  cases hj with
  | null => exact ⟨_, rest, scans_word "null" rfl rfl rfl, nofun⟩
  | bool b =>
    cases b with
    | true => exact ⟨_, rest, scans_word "true" rfl rfl rfl, nofun⟩
    | false => exact ⟨_, rest, scans_word "false" rfl rfl rfl, nofun⟩
  | number hl => exact ⟨_, rest, scans_number hl hrest, nofun⟩
  | string ht => exact ⟨_, rest, scans_string ht rest, nofun⟩
  | array _ => exact ⟨.openBracket, _, scans_mark rfl rfl, nofun⟩
  | object _ _ => exact ⟨.openBrace, _, scans_mark rfl rfl, nofun⟩

/-! ## Containers -/

/-- Right after its opening bracket, an array that has items goes on as after a comma. -/
theorem run_firstItem {j : Json} (hj : j.Writable) {rest : List Char} (hrest : Stops rest) (outer : List Open) :
    (State.firstItem outer).run? (j.chars ++ rest) = (State.value (.array [] :: outer)).run? (j.chars ++ rest) := by
  obtain ⟨token, more, hscans, hne⟩ := exists_scans hj hrest
  apply State.run?_congr hscans
  cases token with
  | closeBracket => exact absurd rfl hne
  | _ => rfl

/-- The items of an array are read one after the other, up to the bracket that closes it. -/
theorem run_items (outer : List Open) (rest : List Char) : ∀ (items done : List Json), items ≠ [] →
    (∀ j ∈ items, j.Reads) → (State.value (.array done :: outer)).run? (itemChars items ++ ']' :: rest) =
      (complete (.array (done ++ items)) outer).run? rest
  | [], _, hne, _ => absurd rfl hne
  | [j], done, _, hitems => by
    have hj : j.Reads := hitems j List.mem_cons_self
    rw [itemChars, hj _ _ (stops_closeBracket rest)]
    exact State.run?_of_scans (scans_mark rfl rfl) rfl
  | j :: k :: more, done, _, hitems => by
    have hj : j.Reads := hitems j List.mem_cons_self
    have hmore : ∀ j' ∈ k :: more, j'.Reads := fun j' hj' => hitems j' (List.mem_cons_of_mem _ hj')
    have htext : itemChars (j :: k :: more) ++ ']' :: rest =
        j.chars ++ ',' :: (itemChars (k :: more) ++ ']' :: rest) := by
      rw [itemChars, List.append_assoc, List.cons_append]
    rw [htext, hj _ _ (stops_comma _)]
    -- the comma leads to the next item, with one more item read
    have hcomma : (State.next (.array (done ++ [j]) :: outer)).run? (',' :: (itemChars (k :: more) ++ ']' :: rest)) =
        (State.value (.array (done ++ [j]) :: outer)).run? (itemChars (k :: more) ++ ']' :: rest) :=
      State.run?_of_scans (scans_mark rfl rfl) rfl
    have hlater := run_items outer rest (k :: more) (done ++ [j]) (List.cons_ne_nil k more) hmore
    rw [List.append_assoc] at hlater
    exact hcomma.trans hlater

theorem reads_array {items : List Json} (hwritable : ∀ j ∈ items, j.Writable) (hitems : ∀ j ∈ items, j.Reads) :
    (Json.array items).Reads := by
  intro outer rest _
  have hopen : (State.value outer).run? ((Json.array items).chars ++ rest) =
      (State.firstItem outer).run? (itemChars items ++ ']' :: rest) := by
    rw [chars, List.cons_append, List.append_assoc]
    exact State.run?_of_scans (scans_mark rfl rfl) rfl
  rw [hopen]
  cases items with
  | nil => exact State.run?_of_scans (scans_mark rfl rfl) rfl
  | cons j more =>
    have hj : j.Writable := hwritable j List.mem_cons_self
    have hfirst : (State.firstItem outer).run? (itemChars (j :: more) ++ ']' :: rest) =
        (State.value (.array [] :: outer)).run? (itemChars (j :: more) ++ ']' :: rest) := by
      cases more with
      | nil => exact run_firstItem hj (stops_closeBracket rest) outer
      | cons k more =>
        rw [itemChars, List.append_assoc, List.cons_append]
        exact run_firstItem hj (stops_comma _) outer
    exact hfirst.trans (run_items outer rest (j :: more) [] (List.cons_ne_nil j more) hitems)

/-- After its name and a colon, the value of a member is read. -/
theorem run_colon (outer : List Open) (done : List (Text × Json)) (name : Text) (rest : List Char) :
    (State.colon outer done name).run? (':' :: rest) = (State.value (.member done name :: outer)).run? rest :=
  State.run?_of_scans (scans_mark rfl rfl) rfl

/-- The members of an object are read one after the other, up to the brace that closes it, from any state that takes a
name. -/
theorem run_members (outer : List Open) (rest : List Char) : ∀ (members done : List (Text × Json)) (s : State),
    members ≠ [] → (∀ t, s.step? (.scalar (.string t)) = some (.colon outer done t)) →
    (∀ m ∈ members, IsText m.1) → (∀ m ∈ members, m.2.Reads) →
      s.run? (memberChars members ++ '\x7d' :: rest) = (complete (.object (done ++ members)) outer).run? rest
  | [], _, _, hne, _, _, _ => absurd rfl hne
  | [(name, j)], done, s, _, hs, hnames, hvalues => by
    have hname : IsText name := hnames _ List.mem_cons_self
    have hj : j.Reads := hvalues _ List.mem_cons_self
    rw [memberChars, List.append_assoc, List.cons_append, State.run?_of_scans (scans_string hname _) (hs name),
      run_colon, hj _ _ (stops_closeBrace rest)]
    exact State.run?_of_scans (scans_mark rfl rfl) rfl
  | (name, j) :: m :: more, done, s, _, hs, hnames, hvalues => by
    have hname : IsText name := hnames _ List.mem_cons_self
    have hj : j.Reads := hvalues _ List.mem_cons_self
    have hlater := run_members outer rest (m :: more) (done ++ [(name, j)]) (.name outer (done ++ [(name, j)]))
      (List.cons_ne_nil m more) (fun _ => rfl) (fun m' hm' => hnames m' (List.mem_cons_of_mem _ hm'))
      fun m' hm' => hvalues m' (List.mem_cons_of_mem _ hm')
    rw [List.append_assoc] at hlater
    have htext : memberChars ((name, j) :: m :: more) ++ '\x7d' :: rest =
        stringChars name ++ ':' :: (j.chars ++ ',' :: (memberChars (m :: more) ++ '\x7d' :: rest)) := by
      rw [memberChars]
      simp only [List.append_assoc, List.cons_append]
    rw [htext, State.run?_of_scans (scans_string hname _) (hs name), run_colon, hj _ _ (stops_comma _)]
    -- the comma leads to the next name, with one more member read
    have hcomma : (State.next (.object (done ++ [(name, j)]) :: outer)).run?
        (',' :: (memberChars (m :: more) ++ '\x7d' :: rest)) =
          (State.name outer (done ++ [(name, j)])).run? (memberChars (m :: more) ++ '\x7d' :: rest) :=
      State.run?_of_scans (scans_mark rfl rfl) rfl
    exact hcomma.trans hlater

theorem reads_object {members : List (Text × Json)} (hnames : ∀ m ∈ members, IsText m.1)
    (hvalues : ∀ m ∈ members, m.2.Reads) : (Json.object members).Reads := by
  intro outer rest _
  have hopen : (State.value outer).run? ((Json.object members).chars ++ rest) =
      (State.firstName outer).run? (memberChars members ++ '\x7d' :: rest) := by
    rw [chars, List.cons_append, List.append_assoc]
    exact State.run?_of_scans (scans_mark rfl rfl) rfl
  rw [hopen]
  cases members with
  | nil => exact State.run?_of_scans (scans_mark rfl rfl) rfl
  | cons m more => exact run_members outer rest (m :: more) [] _ (List.cons_ne_nil m more) (fun _ => rfl) hnames hvalues

/-! ## Documents -/

/-- A document that is one token completes at once. -/
theorem reads_scalar {j : Json} (h : ∀ rest, Stops rest → Scans (j.chars ++ rest) (.scalar j) rest) : j.Reads :=
  fun _ rest hrest => State.run?_of_scans (h rest hrest) rfl

theorem reads_of_writable {j : Json} (h : j.Writable) : j.Reads := by
  induction h with
  | null => exact reads_scalar fun _ _ => scans_word "null" rfl rfl rfl
  | bool b =>
    cases b with
    | true => exact reads_scalar fun _ _ => scans_word "true" rfl rfl rfl
    | false => exact reads_scalar fun _ _ => scans_word "false" rfl rfl rfl
  | number hl => exact reads_scalar fun _ hrest => scans_number hl hrest
  | string ht => exact reads_scalar fun rest _ => scans_string ht rest
  | array hitems ih => exact reads_array hitems ih
  | object hnames _ ih => exact reads_object hnames ih

/-- **The text of a document is read as the document.** -/
theorem read?_text {j : Json} (h : j.Writable) : read? j.text = some j := by
  have hrun : (State.value []).run? j.chars = some (.done j) := by
    have := reads_of_writable h [] [] stops_nil
    rw [List.append_nil] at this
    exact this
  obtain ⟨tokens, htokens, hadvance⟩ := Option.bind_eq_some_iff.1 hrun
  have hchars : j.text.toList = j.chars := String.toList_ofList
  rw [read?, hchars, htokens]
  simp only [Option.bind_eq_bind, Option.bind_some, hadvance]

end TreeQuery.Json
