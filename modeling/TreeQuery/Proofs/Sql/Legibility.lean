import Std.Data.String.ToInt
import TreeQuery.Proofs.Sql.Glyphs

/-!
# What can be read back

Something written is *legible* before certain texts if nothing else of its kind, written and followed by one of these
texts, begins a statement in the same way; what follows is then the same too (`Legible`). The texts that may follow are
told apart by their first characters (`Apart`).

Names and text literals are legible because quotes in them are doubled (`quoted_unique`), words and numbers because
they end where other characters begin (`run_unique`), and lists because their separator is apart from what follows
(`legible_joinPieces`, `legible_clausePieces`).
-/

namespace TreeQuery.Sql

/-! ## What follows -/

/-- Whether some glyphs begin with one of some texts. -/
def Begins (texts : List String) (gs : List Glyph) : Prop := ∃ s ∈ texts, ∃ rest, gs = typed s ++ rest

/-- Whether no text of one list begins like a text of another. -/
def Apart (xs ys : List String) : Prop := ∀ x ∈ xs, ∀ y ∈ ys, ¬ x.toList <+: y.toList ∧ ¬ y.toList <+: x.toList

instance (xs ys : List String) : Decidable (Apart xs ys) :=
  inferInstanceAs (Decidable (∀ x ∈ xs, ∀ y ∈ ys, ¬ x.toList <+: y.toList ∧ ¬ y.toList <+: x.toList))

theorem begins_typed {s : String} {texts : List String} (h : s ∈ texts) (rest : List Glyph) :
    Begins texts (typed s ++ rest) := ⟨s, h, rest, rfl⟩

theorem Begins.mono {xs ys : List String} {gs : List Glyph} (h : Begins xs gs) (hsub : xs ⊆ ys) : Begins ys gs := by
  obtain ⟨s, hs, rest, rfl⟩ := h
  exact begins_typed (hsub hs) rest

theorem prefix_of_typed_append_eq {a b : String} {x y : List Glyph} (h : typed a ++ x = typed b ++ y) :
    a.toList <+: b.toList ∨ b.toList <+: a.toList := by
  have hprefix {a b : String} (h : typed a <+: typed b) : a.toList <+: b.toList := by
    obtain ⟨cs, hcs, heq⟩ := List.prefix_map_iff.1 h
    rwa [(List.map_inj_right fun _ _ => Glyph.char.inj).1 heq]
  have ha : typed a <+: typed b ++ y := ⟨x, h⟩
  exact (List.prefix_or_prefix_of_prefix ha (List.prefix_append _ _)).imp hprefix hprefix

theorem Apart.not_begins {xs ys : List String} {gs : List Glyph} (h : Apart xs ys) (hxs : Begins xs gs) :
    ¬ Begins ys gs := by
  rintro ⟨y, hy, rest', hgs⟩
  obtain ⟨x, hx, rest, rfl⟩ := hxs
  obtain ⟨hxy, hyx⟩ := h x hx y hy
  exact (prefix_of_typed_append_eq hgs).elim hxy hyx

/-- Where a text may follow that is apart from another one, that one does not. -/
theorem Apart.ne {s : String} {ends : List String} {r : List Glyph} (h : Apart [s] ends) (hr : Begins ends r)
    (x : List Glyph) : r ≠ typed s ++ x := by
  rintro rfl
  exact h.not_begins (begins_typed List.mem_cons_self x) hr

/-- Keywords of which none begins another one are told apart, whatever follows them. -/
theorem keyword_unique {α : Type} {text : α → String} (htext : ∀ a b, (text a).toList <+: (text b).toList → a = b)
    {a b : α} {x y : List Glyph} (h : typed (text a) ++ x = typed (text b) ++ y) : a = b ∧ x = y := by
  have hab : a = b := (prefix_of_typed_append_eq h).elim (htext a b) fun hprefix => (htext b a hprefix).symm
  subst hab
  exact ⟨rfl, List.append_cancel_left h⟩

/-- Whether something written can be read back, if one of some texts follows. -/
def Legible {α : Type} (write : α → List Glyph) (Valid : α → Prop) (ends : List String) (a : α) : Prop :=
  ∀ b, Valid b → ∀ r r', Begins ends r → Begins ends r' → write a ++ r = write b ++ r' → a = b ∧ r = r'

theorem Legible.mono {α : Type} {write : α → List Glyph} {Valid : α → Prop} {ends ends' : List String} {a : α}
    (h : Legible write Valid ends a) (hsub : ends' ⊆ ends) : Legible write Valid ends' a :=
  fun b hb r r' hr hr' => h b hb r r' (hr.mono hsub) (hr'.mono hsub)

/-! ## Words and numbers -/

/-- Whether a glyph is a character of a word. -/
def Glyph.isWord : Glyph → Bool
  | .char c => c.isAlphanum || c == '_'
  | .bound _ => false

/-- Whether a glyph is a character of a number. -/
def Glyph.isNumeral : Glyph → Bool
  | .char c => c.isDigit || c == '-'
  | .bound _ => false

/-- Whether a character ends what is written before it. -/
def isPunctuation (c : Char) : Bool := c == ' ' || c == ',' || c == ')'

/-- Whether all of some texts begin with a character that ends what is written before it. -/
def Punctuated (texts : List String) : Prop := ∀ s ∈ texts, s.toList.head?.any isPunctuation = true

instance (texts : List String) : Decidable (Punctuated texts) :=
  inferInstanceAs (Decidable (∀ s ∈ texts, s.toList.head?.any isPunctuation = true))

theorem Begins.punctuation {ends : List String} {r : List Glyph} (h : Begins ends r) (hends : Punctuated ends) :
    ∃ c rest, r = .char c :: rest ∧ isPunctuation c = true := by
  obtain ⟨s, hs, rest, rfl⟩ := h
  have hhead := hends s hs
  unfold typed
  cases hs : s.toList with
  | nil => rw [hs] at hhead; cases hhead
  | cons c cs =>
    rw [hs] at hhead
    exact ⟨c, cs.map Glyph.char ++ rest, rfl, hhead⟩

theorem Begins.head?_ne {ends : List String} {r : List Glyph} (h : Begins ends r) (hends : Punctuated ends) {c : Char}
    (hc : isPunctuation c = false) : r.head? ≠ some (.char c) := by
  obtain ⟨d, rest, rfl, hd⟩ := h.punctuation hends
  intro heq
  cases heq
  rw [hc] at hd
  cases hd

theorem Begins.head?_of_class {ends : List String} {r : List Glyph} (h : Begins ends r) (hends : Punctuated ends)
    {p : Glyph → Bool} (hp : ∀ c, isPunctuation c = true → p (.char c) = false) : ∀ g ∈ r.head?, p g = false := by
  obtain ⟨c, rest, rfl, hc⟩ := h.punctuation hends
  rintro g hg
  cases hg
  exact hp c hc

/-- A run of glyphs of one class ends where another glyph begins. -/
theorem run_unique {p : Glyph → Bool} {v w x y : List Glyph} (hv : ∀ g ∈ v, p g = true) (hw : ∀ g ∈ w, p g = true)
    (hx : ∀ g ∈ x.head?, p g = false) (hy : ∀ g ∈ y.head?, p g = false) (h : v ++ x = w ++ y) : v = w ∧ x = y := by
  have htake {v x : List Glyph} (hv : ∀ g ∈ v, p g = true) (hx : ∀ g ∈ x.head?, p g = false) :
      (v ++ x).takeWhile p = v := by
    rw [List.takeWhile_append_of_pos hv]
    cases x with
    | nil => exact List.append_nil v
    | cons g x => rw [List.takeWhile_cons_of_neg (Bool.eq_false_iff.1 (hx g rfl)), List.append_nil]
  have hvw : v = w := by rw [← htake hv hx, h, htake hw hy]
  subst hvw
  exact ⟨rfl, List.append_cancel_left h⟩

theorem isDigit_of_mem_nat {n : Nat} {c : Char} (h : c ∈ (toString n).toList) : c.isDigit = true := by
  rw [Nat.toString_eq_repr, Nat.toList_repr] at h
  exact Nat.isDigit_of_mem_toDigits (by decide) (by decide) h

theorem isNumeral_of_mem_int {n : Int} {g : Glyph} (h : g ∈ typed (toString n)) : g.isNumeral = true := by
  obtain ⟨c, hc, rfl⟩ := List.mem_map.1 h
  rw [Int.toString_eq_repr, Int.repr_eq_if] at hc
  split at hc
  · rw [Glyph.isNumeral, isDigit_of_mem_nat hc, Bool.true_or]
  · rw [String.toList_append] at hc
    rcases List.mem_append.1 hc with hc | hc
    · have hminus : c = '-' := List.mem_singleton.1 hc
      rw [hminus]
      rfl
    · rw [Glyph.isNumeral, isDigit_of_mem_nat hc, Bool.true_or]

theorem isNumeral_of_isPunctuation {c : Char} (h : isPunctuation c = true) : (Glyph.char c).isNumeral = false := by
  simp only [isPunctuation, Bool.or_eq_true, beq_iff_eq] at h
  rcases h with (rfl | rfl) | rfl <;> rfl

theorem isWord_of_isPunctuation {c : Char} (h : isPunctuation c = true) : (Glyph.char c).isWord = false := by
  simp only [isPunctuation, Bool.or_eq_true, beq_iff_eq] at h
  rcases h with (rfl | rfl) | rfl <;> rfl

/-- A number ends where punctuation begins. -/
theorem int_unique {ends : List String} (hends : Punctuated ends) {m n : Int} {x y : List Glyph} (hx : Begins ends x)
    (hy : Begins ends y) (h : typed (toString m) ++ x = typed (toString n) ++ y) : m = n ∧ x = y := by
  have hhead {x : List Glyph} (hx : Begins ends x) : ∀ g ∈ x.head?, g.isNumeral = false :=
    hx.head?_of_class hends fun _ => isNumeral_of_isPunctuation
  obtain ⟨hmn, hxy⟩ :=
    run_unique (fun _ => isNumeral_of_mem_int) (fun _ => isNumeral_of_mem_int) (hhead hx) (hhead hy) h
  exact ⟨Int.repr_injective (typed_injective hmn), hxy⟩

theorem nat_unique {ends : List String} (hends : Punctuated ends) {m n : Nat} {x y : List Glyph} (hx : Begins ends x)
    (hy : Begins ends y) (h : typed (toString m) ++ x = typed (toString n) ++ y) : m = n ∧ x = y := by
  have hint (n : Nat) : toString n = toString (n : Int) := rfl
  rw [hint, hint] at h
  obtain ⟨hmn, hxy⟩ := int_unique hends hx hy h
  exact ⟨Int.ofNat_inj.1 hmn, hxy⟩

/-! ## Quoted text -/

/-- A quote that is not doubled closes what is quoted. -/
theorem ne_doubled_cons {quote : Char} {x : List Glyph} (hx : x.head? ≠ some (.char quote)) (c : Char) (cs : List Char)
    (y : List Glyph) : .char quote :: x ≠ (doubled quote (c :: cs)).map Glyph.char ++ y := by
  rw [doubled_cons]
  intro h
  split at h
  · exact hx (congrArg List.head? (List.cons.inj h).2)
  · rename_i hc
    exact hc (Glyph.char.inj (List.cons.inj h).1).symm

theorem doubled_unique {quote : Char} {x y : List Glyph} (hx : x.head? ≠ some (.char quote))
    (hy : y.head? ≠ some (.char quote)) : ∀ {as bs : List Char},
    (doubled quote as).map Glyph.char ++ .char quote :: x = (doubled quote bs).map Glyph.char ++ .char quote :: y →
      as = bs ∧ x = y
  | [], [], h => ⟨rfl, (List.cons.inj h).2⟩
  | [], b :: bs, h => absurd h (ne_doubled_cons hx b bs _)
  | a :: as, [], h => absurd h.symm (ne_doubled_cons hy a as _)
  | a :: as, b :: bs, h => by
    rw [doubled_cons, doubled_cons] at h
    have hab : a = b := by
      by_cases ha : a = quote
      · by_cases hb : b = quote
        · rw [ha, hb]
        · rw [if_pos ha, if_neg hb] at h
          exact absurd (Glyph.char.inj (List.cons.inj h).1).symm hb
      · by_cases hb : b = quote
        · rw [if_neg ha, if_pos hb] at h
          exact absurd (Glyph.char.inj (List.cons.inj h).1) ha
        · rw [if_neg ha, if_neg hb] at h
          exact Glyph.char.inj (List.cons.inj h).1
    subst hab
    have hrest : (doubled quote as).map Glyph.char ++ .char quote :: x =
        (doubled quote bs).map Glyph.char ++ .char quote :: y := by
      split at h
      · exact (List.cons.inj (List.cons.inj h).2).2
      · exact (List.cons.inj h).2
    obtain ⟨rfl, hxy⟩ := doubled_unique hx hy hrest
    exact ⟨rfl, hxy⟩

theorem quoted_unique {quote : Char} {s t : String} {x y : List Glyph} (hx : x.head? ≠ some (.char quote))
    (hy : y.head? ≠ some (.char quote))
    (h : typed (String.ofList (quote :: (doubled quote s.toList ++ [quote]))) ++ x =
      typed (String.ofList (quote :: (doubled quote t.toList ++ [quote]))) ++ y) : s = t ∧ x = y := by
  simp only [typed, String.toList_ofList, List.map_cons, List.map_append, List.map_nil, List.cons_append,
    List.append_assoc, List.nil_append] at h
  obtain ⟨hst, hxy⟩ := doubled_unique hx hy (List.cons.inj h).2
  exact ⟨String.toList_inj.1 hst, hxy⟩

theorem quotedName_unique {s t : String} {x y : List Glyph} (hx : x.head? ≠ some (.char '"'))
    (hy : y.head? ≠ some (.char '"')) (h : typed (quotedName s) ++ x = typed (quotedName t) ++ y) : s = t ∧ x = y :=
  quoted_unique hx hy h

theorem quotedText_unique {s t : String} {x y : List Glyph} (hx : x.head? ≠ some (.char '\''))
    (hy : y.head? ≠ some (.char '\'')) (h : typed (quotedText s) ++ x = typed (quotedText t) ++ y) : s = t ∧ x = y :=
  quoted_unique hx hy h

/-! ## Lists -/

theorem glyphs_joinPieces_cons (separator : String) (ps : List Piece) (rest : List (List Piece)) :
    glyphs (joinPieces separator (ps :: rest)) = glyphs ps ++ rest.flatMap fun qs => typed separator ++ glyphs qs := by
  induction rest generalizing ps with
  | nil => rw [joinPieces, List.flatMap_nil, List.append_nil]
  | cons qs rest ih => rw [joinPieces, glyphs_append, glyphs_text, ih, List.flatMap_cons, List.append_assoc]

theorem glyphs_clausePieces_cons (keyword separator : String) (ps : List Piece) (rest : List (List Piece)) :
    glyphs (clausePieces keyword separator (ps :: rest)) =
      typed keyword ++ glyphs (joinPieces separator (ps :: rest)) := rfl

section Lists

variable {α : Type} {write : α → List Piece} {Valid : α → Prop} {separator : String} {ends : List String}

theorem begins_separated (as : List α) {r : List Glyph} (hr : Begins ends r) :
    Begins (separator :: ends) ((as.flatMap fun a => typed separator ++ glyphs (write a)) ++ r) := by
  cases as with
  | nil => exact hr.mono (List.subset_cons_self _ _)
  | cons a as =>
    rw [List.flatMap_cons, List.append_assoc, List.append_assoc]
    exact begins_typed List.mem_cons_self _

theorem legible_separated (hseparator : Apart [separator] ends) {as : List α}
    (h : ∀ a ∈ as, Legible (fun a => glyphs (write a)) Valid (separator :: ends) a) :
    Legible (fun as => as.flatMap fun a => typed separator ++ glyphs (write a)) (fun as => ∀ a ∈ as, Valid a) ends
      as := by
  intro bs hbs r r' hr hr' heq
  induction as generalizing bs with
  | nil =>
    cases bs with
    | nil => exact ⟨rfl, heq⟩
    | cons b bs =>
      simp only [List.flatMap_nil, List.flatMap_cons, List.nil_append, List.append_assoc] at heq
      exact absurd heq (hseparator.ne hr _)
  | cons a as ih =>
    cases bs with
    | nil =>
      simp only [List.flatMap_nil, List.flatMap_cons, List.nil_append, List.append_assoc] at heq
      exact absurd heq.symm (hseparator.ne hr' _)
    | cons b bs =>
      simp only [List.flatMap_cons, List.append_assoc, List.append_cancel_left_eq] at heq
      obtain ⟨hb, hvalid⟩ := List.forall_mem_cons.1 hbs
      obtain ⟨ha, has⟩ := List.forall_mem_cons.1 h
      obtain ⟨rfl, hrest⟩ := ha b hb _ _ (begins_separated as hr) (begins_separated bs hr') heq
      obtain ⟨rfl, hr⟩ := ih has bs hvalid hrest
      exact ⟨rfl, hr⟩

theorem joinPieces_unique (hseparator : Apart [separator] ends) {a b : α} {as bs : List α}
    (h : ∀ c ∈ a :: as, Legible (fun a => glyphs (write a)) Valid (separator :: ends) c)
    (hvalid : ∀ c ∈ b :: bs, Valid c) {r r' : List Glyph} (hr : Begins ends r) (hr' : Begins ends r')
    (heq : glyphs (joinPieces separator ((a :: as).map write)) ++ r =
      glyphs (joinPieces separator ((b :: bs).map write)) ++ r') : a :: as = b :: bs ∧ r = r' := by
  simp only [List.map_cons, glyphs_joinPieces_cons, List.flatMap_map, List.append_assoc] at heq
  obtain ⟨ha, has⟩ := List.forall_mem_cons.1 h
  obtain ⟨hb, hbs⟩ := List.forall_mem_cons.1 hvalid
  obtain ⟨rfl, hrest⟩ := ha b hb _ _ (begins_separated as hr) (begins_separated bs hr') heq
  obtain ⟨rfl, hr⟩ := legible_separated hseparator has bs hbs r r' hr hr' hrest
  exact ⟨rfl, hr⟩

/-- A list is legible if its entries are, and do not begin like what follows the list. -/
theorem legible_joinPieces (hseparator : Apart [separator] ends) {as : List α}
    (h : ∀ a ∈ as, Legible (fun a => glyphs (write a)) Valid (separator :: ends) a) (hvalid : ∀ a ∈ as, Valid a)
    (hopen : ∀ a, Valid a → ∀ r, ¬ Begins ends (glyphs (write a) ++ r)) :
    Legible (fun as => glyphs (joinPieces separator (as.map write))) (fun as => ∀ a ∈ as, Valid a) ends as := by
  have hcons {a : α} {as : List α} (hvalid : ∀ c ∈ a :: as, Valid c) {r r' : List Glyph} (hr : Begins ends r)
      (heq : r = glyphs (joinPieces separator ((a :: as).map write)) ++ r') : False := by
    rw [heq, List.map_cons, glyphs_joinPieces_cons, List.append_assoc] at hr
    exact hopen a (hvalid a List.mem_cons_self) _ hr
  intro bs hbs r r' hr hr' heq
  cases as with
  | nil =>
    cases bs with
    | nil => exact ⟨rfl, heq⟩
    | cons b bs => exact (hcons hbs hr heq).elim
  | cons a as =>
    cases bs with
    | nil => exact (hcons hvalid hr' heq.symm).elim
    | cons b bs => exact joinPieces_unique hseparator h hbs hr hr' heq

/-- A clause is legible if its terms are, and its keyword is not what follows. -/
theorem legible_clausePieces {keyword : String} (hkeyword : Apart [keyword] ends) (hseparator : Apart [separator] ends)
    {as : List α} (h : ∀ a ∈ as, Legible (fun a => glyphs (write a)) Valid (separator :: ends) a) :
    Legible (fun as => glyphs (clausePieces keyword separator (as.map write))) (fun as => ∀ a ∈ as, Valid a) ends
      as := by
  have hcons {a : α} {as : List α} {r r' : List Glyph} (hr : Begins ends r)
      (heq : r = glyphs (clausePieces keyword separator ((a :: as).map write)) ++ r') : False := by
    rw [List.map_cons, glyphs_clausePieces_cons, List.append_assoc] at heq
    exact hkeyword.ne hr _ heq
  intro bs hbs r r' hr hr' heq
  cases as with
  | nil =>
    cases bs with
    | nil => exact ⟨rfl, heq⟩
    | cons b bs => exact (hcons hr heq).elim
  | cons a as =>
    cases bs with
    | nil => exact (hcons hr' heq.symm).elim
    | cons b bs =>
      simp only [List.map_cons, glyphs_clausePieces_cons, List.append_assoc] at heq
      exact joinPieces_unique hseparator h hbs hr hr' (List.append_cancel_left heq)

/-- What may follow before a clause that is not there is what follows behind it, or its keyword. -/
theorem begins_clausePieces (keyword separator : String) (terms : List (List Piece)) {r : List Glyph}
    (hr : Begins ends r) : Begins (keyword :: ends) (glyphs (clausePieces keyword separator terms) ++ r) := by
  cases terms with
  | nil => exact hr.mono (List.subset_cons_self _ _)
  | cons ps terms =>
    rw [glyphs_clausePieces_cons, List.append_assoc]
    exact begins_typed List.mem_cons_self _

end Lists

end TreeQuery.Sql
