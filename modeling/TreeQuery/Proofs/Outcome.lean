/-!
# Steps that may fail

When a sequence of steps succeeds, and what it says then: a sequence succeeds iff each step does (`bind_eq_ok`), a
test of all entries of a list iff each entry passes (`forM_eq_ok`), and a pass over a list has one result for each
entry (`exists_mapM_eq_ok`, `mem_of_mapM_eq_ok`). A function on the results goes through a sequence (`map_bind`,
`mapM_map`).
-/

namespace TreeQuery.Outcome

variable {ε α β γ : Type}

@[simp] theorem ok_bind (a : α) (f : α → Except ε β) : (Except.ok a >>= f) = f a := rfl

@[simp] theorem error_bind (e : ε) (f : α → Except ε β) : (Except.error e >>= f) = .error e := rfl

@[simp] theorem pure_eq (a : α) : (pure a : Except ε α) = .ok a := rfl

/-- Two steps succeed iff the first one does and the second one does on its result. -/
theorem bind_eq_ok {x : Except ε α} {f : α → Except ε β} {b : β} :
    (x >>= f) = .ok b ↔ ∃ a, x = .ok a ∧ f a = .ok b := by
  cases x with
  | ok a => simp
  | error e => simp

/-- A test and a step after it succeed iff both do. -/
theorem then_eq_ok {x : Except ε Unit} {y : Except ε β} {b : β} :
    (x >>= fun _ => y) = .ok b ↔ x = .ok () ∧ y = .ok b := by
  rw [bind_eq_ok]
  exact ⟨fun ⟨_, h⟩ => h, fun h => ⟨(), h⟩⟩

/-- Two steps fail iff the first one does, or the second one does on its result. -/
theorem bind_eq_error {x : Except ε α} {f : α → Except ε β} {e : ε} :
    (x >>= f) = .error e ↔ x = .error e ∨ ∃ a, x = .ok a ∧ f a = .error e := by
  cases x with
  | ok a => simp
  | error e => simp

/-! ## Lists -/

/-- A test of all entries succeeds iff it succeeds on each. -/
theorem forM_eq_ok {f : α → Except ε Unit} : ∀ {xs : List α}, xs.forM f = .ok () ↔ ∀ x ∈ xs, f x = .ok ()
  | [] => iff_of_true rfl fun _ h => nomatch h
  | x :: xs => by
    rw [List.forall_mem_cons, ← @forM_eq_ok _ xs]
    exact then_eq_ok

/-- A test of all entries fails only as it fails on one of them. -/
theorem exists_of_forM_eq_error {f : α → Except ε Unit} {e : ε} :
    ∀ {xs : List α}, xs.forM f = .error e → ∃ x ∈ xs, f x = .error e
  | [], h => nomatch h
  | x :: xs, h => by
    rcases bind_eq_error.1 h with h | ⟨_, _, h⟩
    · exact ⟨x, List.mem_cons_self, h⟩
    · obtain ⟨y, hy, hf⟩ := exists_of_forM_eq_error h
      exact ⟨y, List.mem_cons_of_mem _ hy, hf⟩

/-- A pass over a list succeeds if it does on each entry. -/
theorem exists_mapM_eq_ok {f : α → Except ε β} {xs : List α} (h : ∀ x ∈ xs, ∃ y, f x = .ok y) :
    ∃ ys, xs.mapM f = .ok ys := by
  induction xs with
  | nil => exact ⟨[], rfl⟩
  | cons x xs ih =>
    obtain ⟨y, hy⟩ := h x List.mem_cons_self
    obtain ⟨ys, hys⟩ := ih fun x' hx' => h x' (List.mem_cons_of_mem _ hx')
    exact ⟨y :: ys, by rw [List.mapM_cons, hy, ok_bind, hys]; rfl⟩

/-- Every result of a pass over a list comes from an entry. -/
theorem mem_of_mapM_eq_ok {f : α → Except ε β} {xs : List α} {ys : List β} (h : xs.mapM f = .ok ys) {y : β}
    (hy : y ∈ ys) : ∃ x ∈ xs, f x = .ok y := by
  induction xs generalizing ys with
  | nil => cases h; cases hy
  | cons x xs ih =>
    rw [List.mapM_cons] at h
    obtain ⟨y', hx, h⟩ := bind_eq_ok.1 h
    obtain ⟨ys', hxs, h⟩ := bind_eq_ok.1 h
    cases h
    rcases List.mem_cons.1 hy with rfl | hy
    · exact ⟨x, List.mem_cons_self, hx⟩
    · obtain ⟨x', hx', hf⟩ := ih hxs hy
      exact ⟨x', List.mem_cons_of_mem _ hx', hf⟩

/-- Every entry of a list has a result in a pass over the list. -/
theorem exists_mem_of_mapM_eq_ok {f : α → Except ε β} {xs : List α} {ys : List β} (h : xs.mapM f = .ok ys) {x : α}
    (hx : x ∈ xs) : ∃ y ∈ ys, f x = .ok y := by
  induction xs generalizing ys with
  | nil => cases hx
  | cons x' xs ih =>
    rw [List.mapM_cons] at h
    obtain ⟨y', hx', h⟩ := bind_eq_ok.1 h
    obtain ⟨ys', hxs, h⟩ := bind_eq_ok.1 h
    cases h
    rcases List.mem_cons.1 hx with rfl | hx
    · exact ⟨y', List.mem_cons_self, hx'⟩
    · obtain ⟨y, hy, hf⟩ := ih hxs hx
      exact ⟨y, List.mem_cons_of_mem _ hy, hf⟩

/-- The results of a pass over a list are related in pairs as the entries are. -/
theorem pairwise_of_mapM_eq_ok {f : α → Except ε β} {R : α → α → Prop} {S : β → β → Prop}
    (hf : ∀ {x x' y y'}, f x = .ok y → f x' = .ok y' → R x x' → S y y') {xs : List α} {ys : List β}
    (h : xs.mapM f = .ok ys) (hxs : xs.Pairwise R) : ys.Pairwise S := by
  induction xs generalizing ys with
  | nil => cases h; exact .nil
  | cons x xs ih =>
    rw [List.mapM_cons] at h
    obtain ⟨y, hx, h⟩ := bind_eq_ok.1 h
    obtain ⟨ys', hys, h⟩ := bind_eq_ok.1 h
    cases h
    obtain ⟨hhead, htail⟩ := List.pairwise_cons.1 hxs
    refine List.pairwise_cons.2 ⟨fun y' hy' => ?_, ih hys htail⟩
    obtain ⟨x', hx', hy'⟩ := mem_of_mapM_eq_ok hys hy'
    exact hf hx hy' (hhead x' hx')

/-! ## Functions on results -/

/-- What follows a step matters only for the result that it has. -/
theorem bind_congr_ok {x : Except ε α} {f g : α → Except ε β} (h : ∀ a, x = .ok a → f a = g a) :
    (x >>= f) = (x >>= g) := by
  cases x with
  | ok a => exact h a rfl
  | error _ => rfl

theorem map_bind (x : Except ε α) (f : α → Except ε β) (g : β → γ) :
    (x >>= f).map g = x >>= fun a => (f a).map g := by
  cases x <;> rfl

theorem bind_map (x : Except ε α) (g : α → β) (f : β → Except ε γ) : (x.map g >>= f) = x >>= fun a => f (g a) := by
  cases x <;> rfl

/-- A pass that answers each entry by `f`, and then changes the answer, gives the changed answers. -/
theorem mapM_map (f : α → Except ε β) (g : β → γ) (xs : List α) :
    xs.mapM (fun x => (f x).map g) = (xs.mapM f).map (List.map g) := by
  induction xs with
  | nil => rfl
  | cons x xs ih => simp only [List.mapM_cons, bind_map, map_bind, ih]; rfl

end TreeQuery.Outcome
