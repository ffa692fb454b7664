import Mathlib.Data.List.Nodup
import TreeQuery.ActionTree.Json
import TreeQuery.Proofs.Json.RoundTrip

/-!
# Parts of documents

The pieces that documents are made of, each written and read back: integers (`int64?_ofInt`, `uint64?_ofInt`), texts,
choices (`choice?_tagged`), and the members of a structure, which are found under their names (`parts?_ofMembers`).

A document can be read if as many containers may be opened as are open at once in it (`nesting`).
-/

namespace TreeQuery

/-! ## Integers -/

namespace Number.Literal

theorem integer?_ofInt (n : Int) : (ofInt n).integer? = some n := by
  have hmagnitude : Nat.ofDigitChars 10 (Nat.toDigits 10 n.natAbs) 0 = n.natAbs := Nat.ofDigitChars_ten_toDigits
  simp only [integer?, ofInt, hmagnitude, ne_eq, not_true_eq_false, or_self, if_false, decide_eq_true_eq]
  split
  · rename_i hneg
    rw [if_neg (by omega)]
    congr 1
    omega
  · congr 1
    omega

theorem int64?_ofInt (n : Int64) : (ofInt n.toInt).int64? = some n := by
  rw [int64?, integer?_ofInt, Option.bind_some, if_pos ⟨neg_int64Bound_le_toInt n, toInt_lt_int64Bound n⟩,
    Int64.ofInt_toInt]

theorem uint64?_ofInt (n : UInt64) : (ofInt n.toNat).uint64? = some n := by
  have hlt : (n.toNat : Int) < UInt64.size := by exact_mod_cast n.toNat_lt_size
  rw [uint64?, integer?_ofInt, Option.bind_some, if_pos ⟨Int.natCast_nonneg _, hlt⟩, Int.toNat_natCast,
    UInt64.ofNat_toNat]

end Number.Literal

/-- The decimal digits of a number other than zero do not start with a zero. -/
theorem head_toDigits_ne_zero {n : Nat} (hn : 0 < n) (more : List Char) : Nat.toDigits 10 n ≠ '0' :: more := by
  induction n using Nat.strongRecOn generalizing more with
  | ind n ih =>
    rcases Nat.lt_or_ge n 10 with hlt | hge
    · have hdigit : ∀ m < 10, 0 < m → Nat.digitChar m ≠ '0' := by decide
      rw [Nat.toDigits_of_lt_base hlt]
      intro h
      exact hdigit n hlt hn (List.cons.inj h).1
    · rw [Nat.toDigits_of_base_le (by decide) hge]
      intro h
      cases hdigits : Nat.toDigits 10 (n / 10) with
      | nil => exact Nat.toDigits_ne_nil hdigits
      | cons c cs =>
        rw [hdigits, List.cons_append] at h
        rw [(List.cons.inj h).1] at hdigits
        exact ih (n / 10) (by omega) (by omega) cs hdigits

namespace Json

theorem isNumber_ofInt (n : Int) : IsNumber (.ofInt n) where
  whole_ne_nil := Nat.toDigits_ne_nil
  isDigit_whole := fun _ hc => Nat.isDigit_of_mem_toDigits (by decide) (by decide) hc
  whole_of_zero := by
    intro more h
    rcases Nat.eq_zero_or_pos n.natAbs with hzero | hpos
    · have hdigits : Nat.toDigits 10 n.natAbs = ['0'] := by rw [hzero]; rfl
      exact (List.cons.inj (hdigits.symm.trans h)).2.symm
    · exact absurd h (head_toDigits_ne_zero hpos more)
  isDigit_fraction := nofun
  exponent_ne_nil := nofun
  isDigit_exponent := nofun

/-! ## Writable documents -/

theorem writable_ofText (s : String) : (ofText s).Writable := .string (isText_codePoints s)

theorem writable_ofInt (n : Int) : (ofInt n).Writable := .number (isNumber_ofInt n)

theorem writable_ofMembers {members : List (String × Json)} (h : ∀ m ∈ members, m.2.Writable) :
    (ofMembers members).Writable := by
  apply Writable.object
  · intro m hm
    obtain ⟨⟨name, value⟩, _, rfl⟩ := List.mem_map.1 hm
    exact isText_codePoints name
  · intro m hm
    obtain ⟨⟨name, value⟩, hmember, rfl⟩ := List.mem_map.1 hm
    exact h _ hmember

theorem writable_tagged {j : Json} (h : j.Writable) (name : String) : (tagged name j).Writable := by
  apply writable_ofMembers
  intro m hm
  cases List.mem_singleton.1 hm
  exact h

theorem writable_optionalJson {α : Type} {f : α → Json} (hf : ∀ a, (f a).Writable) (a : Option α) :
    (optionalJson f a).Writable := by
  cases a with
  | none => exact .null
  | some a => exact hf a

theorem writable_items {α : Type} {f : α → Json} {items : List α} (h : ∀ a ∈ items, (f a).Writable) :
    (Json.array (items.map f)).Writable := by
  apply Writable.array
  intro j hj
  obtain ⟨a, ha, rfl⟩ := List.mem_map.1 hj
  exact h a ha

/-! ## Nesting -/

mutual

/-- How many containers of a document are open at once. -/
def nesting : Json → Nat
  | .array items => itemsNesting items + 1
  | .object members => membersNesting members + 1
  | _ => 0

/-- How many containers in some items are open at once. -/
def itemsNesting : List Json → Nat
  | [] => 0
  | j :: rest => max j.nesting (itemsNesting rest)

/-- How many containers in some members are open at once. -/
def membersNesting : List (Text × Json) → Nat
  | [] => 0
  | (_, j) :: rest => max j.nesting (membersNesting rest)

end

theorem nesting_le_of_mem {items : List Json} {j : Json} (h : j ∈ items) : j.nesting ≤ itemsNesting items := by
  induction items with
  | nil => cases h
  | cons k rest ih =>
    rw [itemsNesting]
    rcases List.mem_cons.1 h with rfl | h
    · omega
    · have := ih h
      omega

@[simp] theorem nesting_ofText (s : String) : (ofText s).nesting = 0 := rfl

@[simp] theorem nesting_tagged (name : String) (j : Json) : (tagged name j).nesting = j.nesting + 1 := by
  simp [tagged, ofMembers, nesting, membersNesting]

/-! ## Choices -/

@[simp] theorem choice?_ofText (name : String) : choice? (ofText name) = some (name, none) := by
  simp [choice?, ofText, toText?_codePoints]

@[simp] theorem choice?_tagged (name : String) (j : Json) : choice? (tagged name j) = some (name, some j) := by
  simp [choice?, tagged, ofMembers, toText?_codePoints]

@[simp] theorem text?_ofText (s : String) : text? (ofText s) = some s := toText?_codePoints s

@[simp] theorem enter?_ofText (depth : Nat) (s : String) : enter? depth (ofText s) = some depth := by
  cases depth <;> rfl

@[simp] theorem enter?_tagged (depth : Nat) (name : String) (j : Json) :
    enter? (depth + 1) (tagged name j) = some depth := rfl

@[simp] theorem enter?_array (depth : Nat) (items : List Json) : enter? (depth + 1) (.array items) = some depth := rfl

/-- A bare choice is found under its name. -/
theorem choiceOf?_ofText {α : Type} (choices : List (String × α)) (depth : Nat) (name : String) :
    choiceOf? choices depth (ofText name) = Keyed.find? name choices := by
  simp [choiceOf?, bareChoice?]

/-- Written items are read one by one. -/
theorem mapM_map_eq_some {α β : Type} {f : α → β} {g : β → Option α} {items : List α}
    (h : ∀ a ∈ items, g (f a) = some a) : (items.map f).mapM g = some items := by
  induction items with
  | nil => rfl
  | cons a rest ih =>
    have hrest := ih fun b hb => h b (List.mem_cons_of_mem _ hb)
    rw [List.map_cons, List.mapM_cons, h a List.mem_cons_self, hrest]
    rfl

/-! ## Members -/

/-- A member is put under its name, if nothing was found there. -/
theorem members?_cons {names : List String} {name : String} {value : Json} {rest : List (Text × Json)}
    {found : List (Option Json)} (hmem : name ∈ names) (hfound : members? names rest = some found)
    (hnew : ∀ p ∈ names.zip found, p.1 = name → p.2 = none) :
    members? names ((codePoints name, value) :: rest) =
      some ((names.zip found).map fun p => if p.1 = name then some value else p.2) := by
  have hnone : ((names.zip found).any fun p => p.1 == name && p.2.isSome) = false := by
    rw [List.any_eq_false]
    intro p hp
    by_cases hname : p.1 = name
    · simp [hnew p hp hname]
    · simp [hname]
  rw [members?, toText?_codePoints]
  simp only [Option.bind_eq_bind, Option.bind_some, hfound, if_pos hmem, hnone, Bool.false_eq_true, if_false]
  rfl

/-- Members that are written under the last ones of some names are found there, and nothing under the names before. -/
theorem members?_written {names : List String} (hnodup : names.Nodup) (members : List (String × Json))
    (before : List String) (hnames : names = before ++ members.map Prod.fst) :
    members? names (members.map fun (name, value) => (codePoints name, value)) =
      some (before.map (fun _ => none) ++ members.map fun m => some m.2) := by
  induction members generalizing before with
  | nil => simp [members?, hnames]
  | cons m rest ih =>
    obtain ⟨name, value⟩ := m
    have hlater := ih (before ++ [name]) (by simp [hnames])
    have hmem : name ∈ names := by simp [hnames]
    rw [hnames] at hnodup
    obtain ⟨_, hinner, hapart⟩ := List.nodup_append.1 hnodup
    have hbefore : ∀ n ∈ before, n ≠ name := fun n hn => hapart n hn name List.mem_cons_self
    have hrest : ∀ n ∈ rest.map Prod.fst, n ≠ name := fun n hn he => (List.nodup_cons.1 hinner).1 (he ▸ hn)
    -- the names with what was found under them: nothing up to this name, and then the later members
    have hzip : names.zip ((before ++ [name]).map (fun _ => none) ++ rest.map fun m => some m.2) =
        before.map (fun n => (n, none)) ++ (name, none) :: rest.map fun m => (m.1, some m.2) := by
      have hnone : before.zip (before.map fun _ => (none : Option Json)) = before.map fun n => (n, none) := by
        calc before.zip (before.map fun _ => (none : Option Json))
          _ = (before.map id).zip (before.map fun _ => none) := by rw [List.map_id]
          _ = before.map fun n => (n, none) := List.zip_map'
      rw [hnames]
      simp only [List.map_append, List.map_cons, List.map_nil, List.append_assoc, List.cons_append, List.nil_append]
      rw [List.zip_append (by simp), List.zip_cons_cons, List.zip_map', hnone]
    rw [List.map_cons, members?_cons hmem hlater ?_, hzip, List.map_append, List.map_cons, List.map_map, List.map_map]
    · simp only [if_true]
      congr 2
      · exact List.map_congr_left fun n hn => if_neg (hbefore n hn)
      · congr 1
        exact List.map_congr_left fun m hm => if_neg (hrest m.1 (List.mem_map_of_mem hm))
    · intro p hp hname
      rw [hzip] at hp
      rcases List.mem_append.1 hp with hp | hp
      · obtain ⟨n, _, rfl⟩ := List.mem_map.1 hp
        rfl
      rcases List.mem_cons.1 hp with rfl | hp
      · rfl
      · obtain ⟨m, hm, rfl⟩ := List.mem_map.1 hp
        exact absurd hname (hrest m.1 (List.mem_map_of_mem hm))

/-- The members of a structure are found under their names. -/
theorem parts?_ofMembers {names : List String} (hnodup : names.Nodup) (members : List (String × Json))
    (hnames : names = members.map Prod.fst) :
    parts? names (ofMembers members) = some (members.map fun m => some m.2) :=
  members?_written hnodup members [] hnames

end Json

end TreeQuery
