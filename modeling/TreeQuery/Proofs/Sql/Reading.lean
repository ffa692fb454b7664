import TreeQuery.Sql.Statement

/-!
# Reading statements

A reader of SQL goes through a text from left to right and skips what is quoted, where a doubled quote stands for one
(`Reading`). It should find the end of everything that is quoted, and outside of quotes no question marks but the
placeholders (`Reading.Finds`).

A list of pieces is *tracked* if a reader that starts outside of quotes finds that, and *trailing* if one that has just
met a closing quote does so too: a quote at the front would then be read as a doubled one. What is quoted is tracked,
and plain text is trailing; so a list that puts plain text between tracked lists is tracked again.
-/

namespace TreeQuery.Sql

/-! ## Reading -/

/-- The characters between which text is quoted. -/
inductive Quote where
  | single
  | double
  deriving DecidableEq

/-- How a quote is written. -/
def Quote.char : Quote → Char
  | .single => '\''
  | .double => '"'

/-- Where a reader of SQL stands. -/
inductive Reading where
  | outside
  /-- Behind an opening quote. -/
  | inside (quote : Quote)
  /-- Behind a quote that closes, unless the same one follows. -/
  | closing (quote : Quote)
  deriving DecidableEq

namespace Reading

/-- Whether a quote is open. -/
def isOpen : Reading → Bool
  | .inside _ => true
  | .outside | .closing _ => false

/-- Where the reader stands after a character that is not quoted. -/
def enter (c : Char) : Reading :=
  if c = Quote.single.char then .inside .single
  else if c = Quote.double.char then .inside .double
  else .outside

/-- Where the reader stands after a character. -/
def next : Reading → Char → Reading
  | .outside, c => enter c
  | .inside quote, c => if c = quote.char then .closing quote else .inside quote
  | .closing quote, c => if c = quote.char then .inside quote else enter c

/-- Where the reader stands after a text. -/
def run : Reading → List Char → Reading
  | q, [] => q
  | q, c :: cs => run (q.next c) cs

/-- The places of the question marks that are not quoted, in a text that starts at place `i`. -/
def marks : Reading → Nat → List Char → List Nat
  | _, _, [] => []
  | q, i, c :: cs =>
    if q.isOpen = false ∧ c = '?' then i :: marks (q.next c) (i + 1) cs else marks (q.next c) (i + 1) cs

theorem run_append : ∀ (q : Reading) (cs ds : List Char), q.run (cs ++ ds) = (q.run cs).run ds
  | _, [], _ => rfl
  | q, c :: cs, ds => run_append (q.next c) cs ds

theorem marks_append : ∀ (q : Reading) (i : Nat) (cs ds : List Char),
    q.marks i (cs ++ ds) = q.marks i cs ++ (q.run cs).marks (i + cs.length) ds
  | _, _, [], _ => rfl
  | q, i, c :: cs, ds => by
    have ih := marks_append (q.next c) (i + 1) cs ds
    rw [Nat.add_assoc, Nat.add_comm 1] at ih
    simp only [List.cons_append, marks, run, List.length_cons, ih]
    split <;> rfl

end Reading

/-- Where a list of pieces writes its placeholders if it starts at place `i`, with the values that they bind. -/
def placements : Nat → List Piece → List (Nat × Value)
  | _, [] => []
  | i, .text s :: rest => placements (i + s.toList.length) rest
  | i, .placeholder value :: rest => (i, value) :: placements (i + 1) rest

/-- The characters of some pieces. -/
def pieceChars (pieces : List Piece) : List Char := pieces.flatMap fun p => p.sql.toList

theorem pieceChars_text (s : String) (ps : List Piece) : pieceChars (.text s :: ps) = s.toList ++ pieceChars ps := rfl

theorem pieceChars_placeholder (value : Value) (ps : List Piece) :
    pieceChars (.placeholder value :: ps) = '?' :: pieceChars ps := by
  have hmark : "?".toList = ['?'] := by decide
  rw [pieceChars, List.flatMap_cons, Piece.sql, hmark]
  rfl

theorem toList_sql_ofPieces (pieces : List Piece) : (Statement.ofPieces pieces).sql.toList = pieceChars pieces := by
  rw [Statement.ofPieces, String.toList_join, List.flatMap_map, pieceChars]

theorem params_ofPieces : ∀ (i : Nat) (pieces : List Piece),
    (Statement.ofPieces pieces).params = (placements i pieces).map Prod.snd
  | _, [] => rfl
  | i, .text s :: rest => params_ofPieces (i + s.toList.length) rest
  | i, .placeholder value :: rest => congrArg (value :: ·) (params_ofPieces (i + 1) rest)

theorem placements_append : ∀ (i : Nat) (ps rs : List Piece),
    placements i (ps ++ rs) = placements i ps ++ placements (i + (pieceChars ps).length) rs
  | _, [], _ => rfl
  | i, .text s :: ps, rs => by
    rw [pieceChars_text, List.length_append, ← Nat.add_assoc]
    exact placements_append (i + s.toList.length) ps rs
  | i, .placeholder value :: ps, rs => by
    rw [pieceChars_placeholder, List.length_cons, Nat.add_comm _ 1, ← Nat.add_assoc]
    exact congrArg ((i, value) :: ·) (placements_append (i + 1) ps rs)

/-! ## What a reader finds -/

/-- A reader finds the end of all quotes in some pieces, and no marks but the placeholders. -/
structure Reading.Finds (q : Reading) (pieces : List Piece) : Prop where
  closed : (q.run (pieceChars pieces)).isOpen = false
  marks : ∀ i, q.marks i (pieceChars pieces) = (placements i pieces).map Prod.fst

/-- A reader that starts outside of quotes finds its way through some pieces. -/
def Tracked (pieces : List Piece) : Prop := Reading.outside.Finds pieces

/-- A reader that comes from something quoted or from outside finds its way through some pieces. -/
def Trailing (pieces : List Piece) : Prop := ∀ q : Reading, q.isOpen = false → q.Finds pieces

theorem Reading.Finds.append {q : Reading} {ps rs : List Piece} (hps : q.Finds ps)
    (hrs : (q.run (pieceChars ps)).Finds rs) : q.Finds (ps ++ rs) where
  closed := by
    rw [pieceChars, List.flatMap_append, Reading.run_append]
    exact hrs.closed
  marks i := by
    rw [placements_append, List.map_append, ← hps.marks, ← hrs.marks, ← Reading.marks_append, pieceChars,
      List.flatMap_append]
    rfl

theorem Trailing.tracked {ps : List Piece} (h : Trailing ps) : Tracked ps := h .outside rfl

theorem Tracked.append {ps rs : List Piece} (hps : Tracked ps) (hrs : Trailing rs) : Tracked (ps ++ rs) :=
  Reading.Finds.append hps (hrs _ hps.closed)

theorem Trailing.append {ps rs : List Piece} (hps : Trailing ps) (hrs : Trailing rs) : Trailing (ps ++ rs) :=
  fun q hq => (hps q hq).append (hrs _ (hps q hq).closed)

theorem Reading.finds_nil {q : Reading} (h : q.isOpen = false) : q.Finds [] := ⟨h, fun _ => rfl⟩

theorem trailing_nil : Trailing [] := fun _ h => Reading.finds_nil h

/-- A text may be cut anywhere. -/
theorem Reading.finds_text_append {q : Reading} {a b : String} {ps : List Piece} :
    q.Finds (.text (a ++ b) :: ps) ↔ q.Finds (.text a :: .text b :: ps) := by
  have hchars : pieceChars (.text (a ++ b) :: ps) = pieceChars (.text a :: .text b :: ps) := by
    simp only [pieceChars, List.flatMap_cons, Piece.sql, String.toList_append, List.append_assoc]
  have hplaces : ∀ i, placements i (.text (a ++ b) :: ps) = placements i (.text a :: .text b :: ps) := fun i => by
    simp only [placements, String.toList_append, List.length_append, Nat.add_assoc]
  constructor
  · intro h
    exact ⟨hchars ▸ h.closed, fun i => hchars ▸ hplaces i ▸ h.marks i⟩
  · intro h
    exact ⟨hchars ▸ h.closed, fun i => hchars ▸ hplaces i ▸ h.marks i⟩

/-! ## Plain text -/

/-- Whether a character is no quote and no question mark. -/
def isPlain (c : Char) : Bool := c != '"' && c != '\'' && c != '?'

/-- Whether all characters of a text are plain. -/
def isPlainText (s : String) : Bool := s.toList.all isPlain

section PlainText

variable {q : Reading} {c : Char}

theorem isPlain_iff : isPlain c = true ↔ c ≠ '"' ∧ c ≠ '\'' ∧ c ≠ '?' := by
  simp only [isPlain, Bool.and_eq_true, bne_iff_ne, ne_eq, and_assoc]

/-- Outside of quotes, a plain character opens none. -/
theorem next_of_isPlain (hq : q.isOpen = false) (h : isPlain c = true) : q.next c = .outside := by
  obtain ⟨hdouble, hsingle, _⟩ := isPlain_iff.1 h
  have henter : Reading.enter c = .outside := (if_neg hsingle).trans (if_neg hdouble)
  cases q with
  | outside => exact henter
  | inside quote => cases hq
  | closing quote =>
    have hne : c ≠ quote.char := by
      cases quote
      · exact hsingle
      · exact hdouble
    exact (if_neg hne).trans henter

theorem marks_cons_of_isPlain (h : isPlain c = true) (i : Nat) (cs : List Char) :
    q.marks i (c :: cs) = (q.next c).marks (i + 1) cs := if_neg fun hc => (isPlain_iff.1 h).2.2 hc.2

theorem run_of_isPlain : ∀ {cs : List Char} {q : Reading}, (∀ c ∈ cs, isPlain c = true) → cs ≠ [] → q.isOpen = false →
    q.run cs = .outside
  | [], _, _, hnil, _ => absurd rfl hnil
  | [c], q, h, _, hq => next_of_isPlain hq (h c List.mem_cons_self)
  | c :: d :: cs, q, h, _, hq => by
    obtain ⟨hc, hcs⟩ := List.forall_mem_cons.1 h
    rw [Reading.run, next_of_isPlain hq hc]
    exact run_of_isPlain hcs (List.cons_ne_nil d cs) rfl

theorem marks_of_isPlain : ∀ {cs : List Char} {q : Reading}, (∀ c ∈ cs, isPlain c = true) → q.isOpen = false → ∀ i,
    q.marks i cs = []
  | [], _, _, _, _ => rfl
  | c :: cs, q, h, hq, i => by
    obtain ⟨hc, hcs⟩ := List.forall_mem_cons.1 h
    rw [marks_cons_of_isPlain hc, next_of_isPlain hq hc]
    exact marks_of_isPlain hcs rfl (i + 1)

variable {s : String} {ps : List Piece}

theorem pieceChars_singleton (s : String) : pieceChars [.text s] = s.toList := List.append_nil s.toList

theorem trailing_of_isPlainText (h : isPlainText s = true) : Trailing [.text s] := by
  intro q hq
  have hplain : ∀ c ∈ s.toList, isPlain c = true := List.all_eq_true.1 h
  constructor
  · rw [pieceChars_singleton]
    by_cases hnil : s.toList = []
    · rw [hnil]
      exact hq
    · rw [run_of_isPlain hplain hnil hq]
      rfl
  · intro i
    rw [pieceChars_singleton, marks_of_isPlain hplain hq]
    rfl

/-- After plain text, if there is any, the reader is outside of quotes. -/
theorem trailing_text (h : isPlainText s = true) (hs : s ≠ "") (hps : Tracked ps) : Trailing (.text s :: ps) := by
  intro q hq
  have hnil : s.toList ≠ [] := fun hnil => hs (String.toList_inj.1 hnil)
  have hrun : q.run (pieceChars [.text s]) = .outside := by
    rw [pieceChars_singleton]
    exact run_of_isPlain (List.all_eq_true.1 h) hnil hq
  exact (trailing_of_isPlainText h q hq).append (hrun ▸ hps)

theorem isPlainText_append {a b : String} (ha : isPlainText a = true) (hb : isPlainText b = true) :
    isPlainText (a ++ b) = true := by
  unfold isPlainText at ha hb ⊢
  rw [String.toList_append, List.all_append, ha, hb]
  rfl

/-- Letters, digits and underscores are plain. -/
theorem isPlain_of_isWord (h : (c.isAlphanum || c == '_') = true) : isPlain c = true := by
  rw [isPlain_iff]
  refine ⟨?_, ?_, ?_⟩
  · rintro rfl
    cases h
  · rintro rfl
    cases h
  · rintro rfl
    cases h

theorem isPlainText_nat (n : Nat) : isPlainText (toString n) = true := by
  refine List.all_eq_true.2 fun c hc => ?_
  rw [Nat.toString_eq_repr, Nat.toList_repr] at hc
  have hdigit : c.isDigit = true := Nat.isDigit_of_mem_toDigits (by decide) (by decide) hc
  apply isPlain_of_isWord
  rw [Char.isAlphanum, hdigit, Bool.or_true, Bool.true_or]

theorem isPlainText_int (n : Int) : isPlainText (toString n) = true := by
  rw [Int.toString_eq_repr, Int.repr_eq_if]
  split
  · exact isPlainText_nat _
  · exact isPlainText_append rfl (isPlainText_nat _)

end PlainText

/-! ## Quoted text -/

section Quoted

variable {quote : Quote}

theorem doubled_cons (k c : Char) (cs : List Char) :
    doubled k (c :: cs) = if c = k then k :: k :: doubled k cs else c :: doubled k cs := by
  rw [doubled, List.flatMap_cons]
  split <;> rfl

theorem Quote.char_ne_mark : quote.char ≠ '?' := by cases quote <;> decide

/-- A reader behind an opening quote stays there while the quotes are doubled. -/
theorem run_doubled : ∀ cs : List Char, (Reading.inside quote).run (doubled quote.char cs) = .inside quote
  | [] => rfl
  | c :: cs => by
    rw [doubled_cons]
    split
    · simp only [Reading.run, Reading.next, ↓reduceIte]
      exact run_doubled cs
    · rename_i hc
      simp only [Reading.run, Reading.next, if_neg hc]
      exact run_doubled cs

/-- A reader behind an opening quote takes no notice of question marks. -/
theorem marks_doubled : ∀ (cs : List Char) (i : Nat), (Reading.inside quote).marks i (doubled quote.char cs) = []
  | [], _ => rfl
  | c :: cs, i => by
    rw [doubled_cons]
    split
    · simp only [Reading.marks, Reading.next, Reading.isOpen, Quote.char_ne_mark, and_false, ↓reduceIte]
      exact marks_doubled cs (i + 1 + 1)
    · rename_i hc
      simp only [Reading.marks, Reading.next, Reading.isOpen, Bool.true_eq_false, false_and, if_neg hc, ↓reduceIte]
      exact marks_doubled cs (i + 1)

theorem next_outside_char : Reading.outside.next quote.char = .inside quote := by cases quote <;> rfl

/-- A text between quotes, in which they are doubled, is skipped. -/
theorem tracked_quoted (cs : List Char) :
    Tracked [.text (String.ofList (quote.char :: (doubled quote.char cs ++ [quote.char])))] := by
  constructor
  · rw [pieceChars_singleton, String.toList_ofList, Reading.run, next_outside_char, Reading.run_append, run_doubled]
    simp only [Reading.run, Reading.next, ↓reduceIte, Reading.isOpen]
  · intro i
    rw [pieceChars_singleton, String.toList_ofList, Reading.marks, next_outside_char, Reading.marks_append,
      marks_doubled, run_doubled, if_neg fun h => Quote.char_ne_mark h.2]
    simp only [Reading.marks, Reading.isOpen, Bool.true_eq_false, false_and, ↓reduceIte]
    rfl

theorem tracked_quotedName (name : String) : Tracked [.text (quotedName name)] :=
  @tracked_quoted .double name.toList

theorem tracked_quotedText (s : String) : Tracked [.text (quotedText s)] :=
  @tracked_quoted .single s.toList

theorem tracked_column (table name : String) : Tracked [.text (quotedName table ++ "." ++ quotedName name)] := by
  have hdot : Trailing (.text "." :: [.text (quotedName name)]) :=
    trailing_text rfl (by decide) (tracked_quotedName name)
  rw [String.append_assoc]
  refine Reading.finds_text_append.2 ((tracked_quotedName table).append ?_)
  exact fun q hq => Reading.finds_text_append.2 (hdot q hq)

/-- What names a thing comes after it, with a name between quotes. -/
theorem trailing_label (label : String) : Trailing [.text (" AS " ++ quotedName label)] :=
  fun q hq => Reading.finds_text_append.2 (trailing_text rfl (by decide) (tracked_quotedName label) q hq)

end Quoted

/-! ## Pieces -/

section Pieces

variable {ps : List Piece}

theorem trailing_placeholder (value : Value) : Trailing [.placeholder value] := by
  intro q hq
  have hnext : q.next '?' = .outside := by
    cases q with
    | outside => rfl
    | inside quote => cases hq
    | closing quote => cases quote <;> rfl
  have hchars : pieceChars [.placeholder value] = ['?'] := pieceChars_placeholder value []
  constructor
  · rw [hchars, Reading.run, hnext]
    rfl
  · intro i
    rw [hchars, Reading.marks, if_pos ⟨hq, rfl⟩]
    rfl

theorem tracked_joinPieces {separator : String} (h : isPlainText separator = true) (hs : separator ≠ "") :
    ∀ {lists : List (List Piece)}, (∀ ps ∈ lists, Tracked ps) → Tracked (joinPieces separator lists)
  | [], _ => trailing_nil.tracked
  | [ps], hlists => hlists ps List.mem_cons_self
  | ps :: next :: rest, hlists => by
    obtain ⟨hps, hrest⟩ := List.forall_mem_cons.1 hlists
    exact hps.append (trailing_text h hs (tracked_joinPieces h hs hrest))

theorem trailing_parenthesised (h : Tracked ps) : Trailing (parenthesised ps) :=
  trailing_text rfl (by decide) (h.append (trailing_of_isPlainText rfl))

theorem tracked_operandPieces (e : Expr) (h : Tracked ps) : Tracked (operandPieces e ps) := by
  unfold operandPieces
  split
  · exact (trailing_parenthesised h).tracked
  · exact h

theorem trailing_clausePieces {keyword separator : String} (hkeyword : isPlainText keyword = true) (hk : keyword ≠ "")
    (hseparator : isPlainText separator = true) (hs : separator ≠ "") {terms : List (List Piece)}
    (h : ∀ ps ∈ terms, Tracked ps) : Trailing (clausePieces keyword separator terms) := by
  unfold clausePieces
  split
  · exact trailing_nil
  · exact trailing_text hkeyword hk (tracked_joinPieces hseparator hs h)

theorem tracked_windowPieces {partitionBy orderBy : List (List Piece)} (hpartition : ∀ ps ∈ partitionBy, Tracked ps)
    (horder : ∀ ps ∈ orderBy, Tracked ps) : Tracked (windowPieces partitionBy orderBy) := by
  have hcomma : ∀ {lists : List (List Piece)}, (∀ ps ∈ lists, Tracked ps) → Tracked (joinPieces ", " lists) :=
    tracked_joinPieces rfl (by decide)
  refine tracked_joinPieces rfl (by decide) (List.forall_mem_append.2 ⟨?_, ?_⟩)
  · split
    · exact nofun
    · exact List.forall_mem_singleton.2 (trailing_text rfl (by decide) (hcomma hpartition)).tracked
  · split
    · exact nofun
    · exact List.forall_mem_singleton.2 (trailing_text rfl (by decide) (hcomma horder)).tracked

end Pieces

end TreeQuery.Sql
