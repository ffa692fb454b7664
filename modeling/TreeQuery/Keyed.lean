/-!
# Keyed lists

Lists of pairs in the order in which their keys were first given: a value given again under a key takes the place of
the old one.

- the keys after `put` and `alter` are the old ones, then the new one if it was not there (`keys_alter`);
- what is found under a key is what was put there last (`find?_alter_self`, `find?_alter_of_ne`);
- if no key is there twice, what is found under a key is what is listed with it (`mem_iff_find?`);
- pairs given under different keys are listed as they are given (`ofPairs_of_nodup`).
-/

namespace TreeQuery.Keyed

variable {α : Type}

/-- The first value under a key. -/
def find? (key : String) : List (String × α) → Option α
  | [] => none
  | (k, v) :: rest => if k = key then some v else find? key rest

/-- The list with `f` applied to the value under a key; if there is none, with `f none` at its end. -/
def alter (key : String) (f : Option α → α) : List (String × α) → List (String × α)
  | [] => [(key, f none)]
  | (k, v) :: rest => if k = key then (k, f (some v)) :: rest else (k, v) :: alter key f rest

/-- The list with `f` applied to the value under a key as by `alter`, if `f` has an answer. -/
def alter? (key : String) (f : Option α → Option α) : List (String × α) → Option (List (String × α))
  | [] => (f none).map fun v => [(key, v)]
  | (k, v) :: rest =>
    if k = key then (f (some v)).map fun v => (k, v) :: rest else (alter? key f rest).map fun rest => (k, v) :: rest

/-- The list without the value under a key. -/
def erase (key : String) (list : List (String × α)) : List (String × α) := list.filter fun (k, _) => k != key

/-- The list with a value under a key, in the place of an old value or at the end. -/
def put (key : String) (value : α) (list : List (String × α)) : List (String × α) := alter key (fun _ => value) list

/-- The list of the pairs given in order. -/
def ofPairs (pairs : List (String × α)) : List (String × α) := pairs.foldl (fun list (k, v) => put k v list) []

/-- The keys in order. -/
def keys (list : List (String × α)) : List String := list.map Prod.fst

theorem keys_alter (key : String) (f : Option α → α) (list : List (String × α)) :
    keys (alter key f list) = if key ∈ keys list then keys list else keys list ++ [key] := by
  induction list with
  | nil => rfl
  | cons p rest ih =>
    obtain ⟨k, v⟩ := p
    by_cases h : k = key
    · subst h; simp [alter, keys]
    · have ih' : List.map Prod.fst (alter key f rest) = _ := ih
      simp only [alter, if_neg h, keys, List.map_cons, List.mem_cons, Ne.symm h, false_or, ih', List.cons_append]
      by_cases hm : key ∈ List.map Prod.fst rest <;> simp [hm]

theorem find?_alter_self (key : String) (f : Option α → α) (list : List (String × α)) :
    find? key (alter key f list) = some (f (find? key list)) := by
  induction list with
  | nil => simp [alter, find?]
  | cons p rest ih =>
    obtain ⟨k, v⟩ := p
    by_cases h : k = key <;> simp [alter, find?, h, ih]

theorem find?_alter_of_ne {key key' : String} (h : key' ≠ key) (f : Option α → α) (list : List (String × α)) :
    find? key' (alter key f list) = find? key' list := by
  induction list with
  | nil => simp [alter, find?, Ne.symm h]
  | cons p rest ih =>
    obtain ⟨k, v⟩ := p
    by_cases hk : k = key
    · subst hk; simp [alter, find?, Ne.symm h]
    · simp only [alter, if_neg hk, find?, ih]

theorem find?_append_cons {key : String} {before : List (String × α)} (h : key ∉ keys before) (value : α)
    (later : List (String × α)) : find? key (before ++ (key, value) :: later) = some value := by
  induction before with
  | nil => exact if_pos rfl
  | cons p before ih =>
    obtain ⟨k, v⟩ := p
    have hne : k ≠ key := fun he => h (List.mem_cons.2 (.inl he.symm))
    rw [List.cons_append, find?, if_neg hne]
    exact ih fun hmem => h (List.mem_cons_of_mem _ hmem)

theorem mem_of_find? {key : String} {value : α} {list : List (String × α)} (h : find? key list = some value) :
    (key, value) ∈ list := by
  induction list with
  | nil => cases h
  | cons p rest ih =>
    obtain ⟨k, v⟩ := p
    unfold find? at h
    split at h
    · rename_i hk
      cases h
      cases hk
      exact List.mem_cons_self
    · exact List.mem_cons_of_mem _ (ih h)

theorem mem_iff_find? {key : String} {value : α} {list : List (String × α)} (hkeys : (keys list).Nodup) :
    (key, value) ∈ list ↔ find? key list = some value := by
  refine ⟨fun h => ?_, mem_of_find?⟩
  induction list with
  | nil => cases h
  | cons p rest ih =>
    obtain ⟨k, v⟩ := p
    obtain ⟨hk, hrest⟩ := List.nodup_cons.1 hkeys
    rcases List.mem_cons.1 h with h | h
    · cases h
      exact if_pos rfl
    · have hmem : key ∈ keys rest := List.mem_map_of_mem h
      have hne : k ≠ key := fun he => hk (he ▸ hmem)
      rw [find?, if_neg hne]
      exact ih hrest h

theorem nodup_keys_alter {key : String} {f : Option α → α} {list : List (String × α)} (hkeys : (keys list).Nodup) :
    (keys (alter key f list)).Nodup := by
  rw [keys_alter]
  split
  · exact hkeys
  · rename_i hkey
    exact List.nodup_append.2 ⟨hkeys, List.nodup_cons.2 ⟨List.not_mem_nil, List.nodup_nil⟩, fun a ha b hb => by
      cases List.mem_singleton.1 hb
      exact fun he => hkey (he ▸ ha)⟩

/-- Every value after a change is an old one or the changed one. -/
theorem mem_alter {key : String} {f : Option α → α} {list : List (String × α)} {p : String × α}
    (h : p ∈ alter key f list) : p ∈ list ∨ p = (key, f (find? key list)) := by
  induction list with
  | nil => exact .inr (List.mem_singleton.1 h)
  | cons q rest ih =>
    obtain ⟨k, v⟩ := q
    by_cases hk : k = key
    · subst hk
      rw [alter, if_pos rfl] at h
      rw [find?, if_pos rfl]
      rcases List.mem_cons.1 h with h | h
      · exact .inr h
      · exact .inl (List.mem_cons_of_mem _ h)
    · rw [alter, if_neg hk] at h
      rw [find?, if_neg hk]
      rcases List.mem_cons.1 h with rfl | h
      · exact .inl List.mem_cons_self
      · exact (ih h).imp_left (List.mem_cons_of_mem _)

/-- A value under a new key comes last. -/
theorem alter_of_not_mem {key : String} {list : List (String × α)} (h : key ∉ keys list) (f : Option α → α) :
    alter key f list = list ++ [(key, f none)] := by
  induction list with
  | nil => rfl
  | cons p rest ih =>
    obtain ⟨k, v⟩ := p
    have hne : k ≠ key := fun he => h (List.mem_cons.2 (.inl he.symm))
    have hrest : key ∉ keys rest := fun hmem => h (List.mem_cons_of_mem _ hmem)
    rw [alter, if_neg hne, ih hrest, List.cons_append]

theorem foldl_put_of_nodup (pairs list : List (String × α)) (h : (keys list ++ keys pairs).Nodup) :
    pairs.foldl (fun list (k, v) => put k v list) list = list ++ pairs := by
  induction pairs generalizing list with
  | nil => exact (List.append_nil list).symm
  | cons p rest ih =>
    obtain ⟨k, v⟩ := p
    have hsplit : keys list ++ keys ((k, v) :: rest) = keys (list ++ [(k, v)]) ++ keys rest := by simp [keys]
    have hnew : k ∉ keys list := by
      intro hmem
      obtain ⟨_, _, hapart⟩ := List.nodup_append.1 h
      exact hapart k hmem k List.mem_cons_self rfl
    have hput : put k v list = list ++ [(k, v)] := alter_of_not_mem hnew _
    have hlater := ih (list ++ [(k, v)]) (hsplit ▸ h)
    rw [List.append_assoc] at hlater
    simp only [List.foldl_cons, hput]
    exact hlater

theorem ofPairs_of_nodup {pairs : List (String × α)} (h : (keys pairs).Nodup) : ofPairs pairs = pairs :=
  foldl_put_of_nodup pairs [] h

end TreeQuery.Keyed
