import TreeQuery.Proofs.Sql.Legibility

/-!
# Operands and operations

How an expression shows what it is. By itself it is an operand, which in an operation is followed by a joint and the
rest (`Expr.glyphs_pieces`); a joint is apart from other joints and from all that follows an expression
(`joint?_unique`). As an operand it shows its form by its first glyphs (`formOf_operand`).

So to read an expression back it is enough to tell it from others of its form (`readable_of_form`) or, if it is an
operation, to read its first operand and its rest (`legible_whole`, `readable_of_whole`).
-/

namespace TreeQuery.Sql

/-! ## What follows an expression -/

/-- What joins the first operand of an operation to the rest of it. -/
inductive Joint where
  | operator (op : BinaryOperator)
  | isNull (negated : Bool)
  | among
  deriving DecidableEq

/-- How a joint is written. -/
def Joint.text : Joint → String
  | .operator op => " " ++ op.text ++ " "
  | .isNull negated => if negated then " IS NOT NULL" else " IS NULL"
  | .among => " IN ("

/-- All joints. -/
def joints : List Joint :=
  [.operator (.compare .equal), .operator (.compare .notEqual), .operator (.compare .greater),
    .operator (.compare .greaterOrEqual), .operator (.compare .less), .operator (.compare .lessOrEqual),
    .operator .like, .operator .concat, .isNull true, .isNull false, .among]

theorem mem_joints (j : Joint) : j ∈ joints := by
  cases j with
  | operator op =>
    cases op with
    | compare c => cases c <;> decide
    | like | concat => decide
  | isNull negated => cases negated <;> decide
  | among => decide

/-- What may follow an expression. -/
def exprEnds : List String :=
  [", ", ")", " AS ", " ASC", " DESC", " THEN ", " ELSE ", " END", " FROM ", " JOIN ", " LEFT OUTER JOIN ", " WHERE ",
    " GROUP BY ", " ORDER BY ", " LIMIT "]

/-- What may follow an operand. -/
def operandEnds : List String := joints.map Joint.text ++ " AND " :: exprEnds

theorem exprEnds_subset : exprEnds ⊆ operandEnds :=
  fun _ h => List.mem_append_right _ (List.mem_cons_of_mem _ h)

theorem jointText_mem (j : Joint) : j.text ∈ operandEnds := List.mem_append_left _ (List.mem_map_of_mem (mem_joints j))

theorem punctuated_operandEnds : Punctuated operandEnds := by decide

theorem apart_joints : Apart (joints.map Joint.text) exprEnds := by decide

theorem jointText_prefixFree : ∀ j ∈ joints, ∀ j' ∈ joints, j.text.toList <+: j'.text.toList → j = j' := by decide

/-! ## Operations -/

/-- Whether all functions that an expression calls are named without quotes. -/
def Expr.Callable (e : Expr) : Prop := ∀ part ∈ e.parts, part.isCallable = true

namespace Expr

/-- The first operand of an operation; any other expression itself. -/
def head : Expr → Expr
  | .binary left _ _ => left
  | .isNull operand _ => operand
  | .inList operand _ => operand
  | e => e

/-- The joint of an operation. -/
def joint? : Expr → Option Joint
  | .binary _ op _ => some (.operator op)
  | .isNull _ negated => some (.isNull negated)
  | .inList _ _ => some .among
  | _ => none

/-- What stands behind the joint. -/
def rest : Expr → List Piece
  | .binary _ _ right => operandPieces right right.pieces
  | .inList _ list => joinPieces ", " (piecesOfAll list) ++ [.text ")"]
  | _ => []

end Expr

/-- A joint as glyphs, if there is one. -/
def jointGlyphs : Option Joint → List Glyph
  | none => []
  | some j => typed j.text

theorem glyphs_parenthesised (ps : List Piece) : glyphs (parenthesised ps) = typed "(" ++ (glyphs ps ++ typed ")") := by
  rw [parenthesised, glyphs_text, glyphs_append, glyphs_text, glyphs_nil, List.append_nil]

/-- An expression is an operand, which in an operation is followed by a joint and the rest. -/
theorem Expr.glyphs_pieces (e : Expr) :
    glyphs e.pieces = glyphs (operandPieces e.head e.head.pieces) ++ (jointGlyphs e.joint? ++ glyphs e.rest) := by
  cases e with
  | column _ _ | param _ | text _ | int _ | call _ _ | case _ _ _ | rowNumber _ _ => exact (List.append_nil _).symm
  | binary left op right => rw [pieces, glyphs_append, glyphs_text]; rfl
  | isNull operand negated => rw [pieces, glyphs_append, glyphs_text]; rfl
  | inList operand list =>
    have hopen : typed " IN " ++ typed "(" = typed " IN (" := (typed_append " IN " "(").symm
    rw [pieces, glyphs_append, glyphs_text, glyphs_parenthesised, rest, glyphs_append, glyphs_text, glyphs_nil,
      List.append_nil, ← List.append_assoc (typed " IN "), hopen]
    rfl

theorem Expr.rest_of_joint?_none {e : Expr} (h : e.joint? = none) : e.rest = [] := by
  cases e with
  | column _ _ | param _ | text _ | int _ | call _ _ | case _ _ _ | rowNumber _ _ | isNull _ _ => rfl
  | binary _ _ _ | inList _ _ => cases h

theorem Expr.head_of_joint?_none {e : Expr} (h : e.joint? = none) : e.head = e := by
  cases e with
  | column _ _ | param _ | text _ | int _ | call _ _ | case _ _ _ | rowNumber _ _ => rfl
  | binary _ _ _ | inList _ _ | isNull _ _ => cases h

theorem callable_atom {e : Expr} (hparts : e.parts = [e]) (h : e.isCallable = true) : e.Callable := by
  intro part hpart
  rw [hparts] at hpart
  cases List.mem_singleton.1 hpart
  exact h

theorem callable_all {es : List Expr} : (∀ part ∈ partsOfAll es, part.isCallable = true) ↔ ∀ e ∈ es, e.Callable := by
  constructor
  · exact fun h e he part hpart => h part (mem_partsOfAll.2 ⟨e, he, hpart⟩)
  · intro h part hpart
    obtain ⟨e, he, hpart⟩ := mem_partsOfAll.1 hpart
    exact h e he part hpart

theorem callable_order {terms : List (Expr × SortOrder)} :
    (∀ part ∈ orderParts terms, part.isCallable = true) ↔ ∀ t ∈ terms, t.1.Callable := by
  rw [orderParts_eq_flatMap]
  constructor
  · exact fun h t ht part hpart => h part (List.mem_flatMap.2 ⟨t, ht, hpart⟩)
  · intro h part hpart
    obtain ⟨t, ht, hpart⟩ := List.mem_flatMap.1 hpart
    exact h t ht part hpart

theorem callable_else {otherwise : Option Expr} :
    (∀ part ∈ elseParts otherwise, part.isCallable = true) ↔ ∀ e ∈ otherwise, e.Callable := by
  cases otherwise with
  | none => exact ⟨fun _ _ h => (nomatch h), fun _ _ h => (nomatch h)⟩
  | some e =>
    constructor
    · rintro h d hd
      cases hd
      exact h
    · exact fun h => h e rfl

theorem Expr.Callable.head {e : Expr} (h : e.Callable) : e.head.Callable := by
  cases e with
  | column _ _ | param _ | text _ | int _ | call _ _ | case _ _ _ | rowNumber _ _ => exact h
  | binary _ _ _ | inList _ _ => exact (List.forall_mem_append.1 (List.forall_mem_cons.1 h).2).1
  | isNull _ _ => exact (List.forall_mem_cons.1 h).2

/-- The joint and the rest are apart from other joints and from all that follows an expression. -/
theorem begins_rest (e : Expr) {r : List Glyph} (hr : Begins exprEnds r) :
    Begins operandEnds (jointGlyphs e.joint? ++ (glyphs e.rest ++ r)) := by
  cases hjoint : e.joint? with
  | none =>
    rw [Expr.rest_of_joint?_none hjoint]
    exact hr.mono exprEnds_subset
  | some j => exact begins_typed (jointText_mem j) _

theorem joint_unique {j j' : Joint} {x y : List Glyph} (h : typed j.text ++ x = typed j'.text ++ y) :
    j = j' ∧ x = y :=
  keyword_unique (fun j j' => jointText_prefixFree j (mem_joints j) j' (mem_joints j')) h

theorem joint?_unique {e e' : Expr} {r r' : List Glyph} (hr : Begins exprEnds r) (hr' : Begins exprEnds r')
    (h : jointGlyphs e.joint? ++ (glyphs e.rest ++ r) = jointGlyphs e'.joint? ++ (glyphs e'.rest ++ r')) :
    e'.joint? = e.joint? ∧ glyphs e.rest ++ r = glyphs e'.rest ++ r' := by
  have hnone {e : Expr} {j : Joint} {x r : List Glyph} (hr : Begins exprEnds r) (he : e.joint? = none)
      (h : glyphs e.rest ++ r = typed j.text ++ x) : False := by
    rw [Expr.rest_of_joint?_none he, glyphs_nil, List.nil_append] at h
    exact apart_joints.not_begins (h ▸ begins_typed (List.mem_map_of_mem (mem_joints j)) x) hr
  cases he : e.joint? with
  | none =>
    cases he' : e'.joint? with
    | none =>
      rw [he, he'] at h
      exact ⟨rfl, h⟩
    | some j' =>
      rw [he, he'] at h
      exact (hnone hr he h).elim
  | some j =>
    cases he' : e'.joint? with
    | none =>
      rw [he, he'] at h
      exact (hnone hr' he' h.symm).elim
    | some j' =>
      rw [he, he'] at h
      obtain ⟨rfl, hrest⟩ := joint_unique h
      exact ⟨rfl, hrest⟩

/-- An expression can be read back, by itself and as an operand. -/
structure Expr.Readable (e : Expr) : Prop where
  whole : Legible (fun e => glyphs e.pieces) Expr.Callable exprEnds e
  operand : Legible (fun e => glyphs (operandPieces e e.pieces)) Expr.Callable operandEnds e

theorem legible_whole {e : Expr}
    (hhead : Legible (fun e => glyphs (operandPieces e e.pieces)) Expr.Callable operandEnds e.head)
    (hrest : ∀ e' : Expr, e'.Callable → e.head = e'.head → e'.joint? = e.joint? → ∀ r r', Begins exprEnds r →
      Begins exprEnds r' → glyphs e.rest ++ r = glyphs e'.rest ++ r' → e = e' ∧ r = r') :
    Legible (fun e => glyphs e.pieces) Expr.Callable exprEnds e := by
  intro e' he' r r' hr hr' heq
  simp only [Expr.glyphs_pieces, List.append_assoc] at heq
  obtain ⟨hhead', heq⟩ := hhead e'.head he'.head _ _ (begins_rest e hr) (begins_rest e' hr') heq
  obtain ⟨hjoint, heq⟩ := joint?_unique hr hr' heq
  exact hrest e' he' hhead' hjoint r r' hr hr' heq

/-- An expression that is no operation is an operand as it is. -/
theorem readable_of_operand {e : Expr} (hjoint : e.joint? = none)
    (h : Legible (fun e => glyphs (operandPieces e e.pieces)) Expr.Callable operandEnds e) : e.Readable := by
  refine ⟨legible_whole ((Expr.head_of_joint?_none hjoint).symm ▸ h) ?_, h⟩
  intro e' _ hhead hjoint' r r' _ _ heq
  rw [hjoint] at hjoint'
  rw [Expr.head_of_joint?_none hjoint, Expr.head_of_joint?_none hjoint'] at hhead
  rw [Expr.rest_of_joint?_none hjoint, Expr.rest_of_joint?_none hjoint'] at heq
  exact ⟨hhead, heq⟩

/-! ## Forms of operands -/

/-- The forms of operands. -/
inductive Form where
  | column
  | param
  | text
  | int
  | call
  | case
  | rowNumber
  | operation
  deriving DecidableEq

/-- The form of an expression as an operand. -/
def Expr.form : Expr → Form
  | .column _ _ => .column
  | .param _ => .param
  | .text _ => .text
  | .int _ => .int
  | .call _ _ => .call
  | .case _ _ _ => .case
  | .rowNumber _ _ => .rowNumber
  | .binary _ _ _ | .isNull _ _ | .inList _ _ => .operation

/-- The form of an operand that begins with a word or a number, by what comes after that. -/
def formAfterWord : List Glyph → Form
  | .char '(' :: .char ')' :: .char ' ' :: .char 'O' :: .char 'V' :: _ => .rowNumber
  | .char '(' :: _ => .call
  | .char ' ' :: .char 'W' :: .char 'H' :: .char 'E' :: .char 'N' :: _ => .case
  | _ => .int

/-- The form of an operand, by its first glyphs. -/
def formOf : List Glyph → Form
  | .bound _ :: _ => .param
  | .char '"' :: _ => .column
  | .char '\'' :: _ => .text
  | .char '(' :: _ => .operation
  | .char '-' :: _ => .int
  | gs => formAfterWord (gs.dropWhile Glyph.isWord)

theorem formOf_word {word rest : List Glyph} (hne : word ≠ []) (hword : ∀ g ∈ word, g.isWord = true)
    (hrest : ∀ g ∈ rest.head?, g.isWord = false) : formOf (word ++ rest) = formAfterWord rest := by
  have hdrop : (word ++ rest).dropWhile Glyph.isWord = rest := by
    rw [List.dropWhile_append_of_pos hword]
    cases rest with
    | nil => rfl
    | cons g rest => exact List.dropWhile_cons_of_neg (Bool.eq_false_iff.1 (hrest g rfl))
  cases word with
  | nil => exact absurd rfl hne
  | cons g word =>
    have hg : g.isWord = true := hword g List.mem_cons_self
    rw [List.cons_append] at hdrop ⊢
    unfold formOf
    split
    case h_6 => rw [hdrop]
    -- The other forms begin with a glyph that is in no word.
    all_goals
      rename_i heq
      cases heq
      cases hg

/-- What may follow a number is not what stands behind the word of a call, a case or a window. -/
theorem formAfterWord_of_begins {r : List Glyph} (hr : Begins operandEnds r) : formAfterWord r = .int := by
  have hparen : Apart ["("] operandEnds := by decide
  have hwhen : Apart [" WHEN"] operandEnds := by decide
  unfold formAfterWord
  split
  · exact absurd rfl (hparen.ne hr _)
  · exact absurd rfl (hparen.ne hr _)
  · exact absurd rfl (hwhen.ne hr _)
  · rfl

/-- Whether some glyphs begin with what is no punctuation. -/
def Opens (gs : List Glyph) : Prop := ∃ g rest, gs = g :: rest ∧ ∀ c, g = .char c → isPunctuation c = false

theorem Opens.append {gs : List Glyph} (h : Opens gs) (r : List Glyph) : Opens (gs ++ r) := by
  obtain ⟨g, rest, rfl, hg⟩ := h
  exact ⟨g, rest ++ r, rfl, hg⟩

theorem Opens.not_begins {gs : List Glyph} (h : Opens gs) {ends : List String} (hends : Punctuated ends) :
    ¬ Begins ends gs := by
  intro hbegins
  obtain ⟨g, rest, rfl, hg⟩ := h
  obtain ⟨c, rest', heq, hc⟩ := hbegins.punctuation hends
  rw [hg c (List.cons.inj heq).1] at hc
  cases hc

theorem opens_of_class {p : Glyph → Bool} (hp : ∀ c, isPunctuation c = true → p (.char c) = false) {gs : List Glyph}
    (hne : gs ≠ []) (hgs : ∀ g ∈ gs, p g = true) : Opens gs := by
  cases gs with
  | nil => exact absurd rfl hne
  | cons g rest =>
    refine ⟨g, rest, rfl, fun c hc => Bool.eq_false_iff.2 fun hpunctuation => ?_⟩
    have hg : p g = true := hgs g List.mem_cons_self
    rw [hc, hp c hpunctuation] at hg
    cases hg

theorem isWord_of_isIdentifier {function : String} (h : isIdentifier function = true) :
    typed function ≠ [] ∧ ∀ g ∈ typed function, g.isWord = true := by
  obtain ⟨hne, hall⟩ := Bool.and_eq_true_iff.1 h
  refine ⟨fun hnil => bne_iff_ne.1 hne (typed_injective hnil), fun g hg => ?_⟩
  obtain ⟨c, hc, rfl⟩ := List.mem_map.1 hg
  exact List.all_eq_true.1 hall c hc

theorem typed_quotedName (name : String) :
    typed (quotedName name) = .char '"' :: ((doubled '"' name.toList).map Glyph.char ++ [.char '"']) := by
  rw [quotedName, typed, String.toList_ofList, List.map_cons, List.map_append]
  rfl

theorem typed_quotedText (s : String) :
    typed (quotedText s) = .char '\'' :: ((doubled '\'' s.toList).map Glyph.char ++ [.char '\'']) := by
  rw [quotedText, typed, String.toList_ofList, List.map_cons, List.map_append]
  rfl

/-! ## Operands as glyphs -/

section Glyphs

theorem glyphs_column (table name : String) :
    glyphs (operandPieces (.column table name) (Expr.column table name).pieces) =
      typed (quotedName table) ++ (typed "." ++ typed (quotedName name)) := by
  rw [operandPieces, if_neg nofun, Expr.pieces, glyphs_text, glyphs_nil, List.append_nil, typed_append, typed_append,
    List.append_assoc]

theorem glyphs_textLiteral (s : String) :
    glyphs (operandPieces (.text s) (Expr.text s).pieces) = typed (quotedText s) := List.append_nil _

theorem glyphs_int (n : Int64) :
    glyphs (operandPieces (.int n) (Expr.int n).pieces) = typed (toString n.toInt) := List.append_nil _

theorem glyphs_call (function : String) (arguments : List Expr) :
    glyphs (operandPieces (.call function arguments) (Expr.call function arguments).pieces) =
      typed function ++ (typed "(" ++ (glyphs (joinPieces ", " (piecesOfAll arguments)) ++ typed ")")) := by
  rw [operandPieces, if_neg nofun, Expr.pieces, glyphs_text, glyphs_parenthesised]

theorem glyphs_case (condition result : Expr) (otherwise : Option Expr) :
    glyphs (operandPieces (.case condition result otherwise) (Expr.case condition result otherwise).pieces) =
      typed "CASE WHEN " ++ (glyphs condition.pieces ++ (typed " THEN " ++ (glyphs result.pieces ++
        (glyphs (elsePieces otherwise) ++ typed " END")))) := by
  rw [operandPieces, if_neg nofun, Expr.pieces]
  simp only [glyphs_text, glyphs_append, glyphs_nil, List.append_nil]

theorem glyphs_rowNumber (partitionBy : List Expr) (orderBy : List (Expr × SortOrder)) :
    glyphs (operandPieces (.rowNumber partitionBy orderBy) (Expr.rowNumber partitionBy orderBy).pieces) =
      typed "ROW_NUMBER() OVER (" ++ (glyphs (windowPieces (piecesOfAll partitionBy) (orderPieces orderBy)) ++
        typed ")") := by
  have hopen : typed "ROW_NUMBER() OVER " ++ typed "(" = typed "ROW_NUMBER() OVER (" :=
    (typed_append "ROW_NUMBER() OVER " "(").symm
  rw [operandPieces, if_neg nofun, Expr.pieces, glyphs_text, glyphs_parenthesised, ← List.append_assoc, hopen]

theorem glyphs_operation {e : Expr} (h : e.form = .operation) :
    glyphs (operandPieces e e.pieces) = typed "(" ++ (glyphs e.pieces ++ typed ")") := by
  have hoperation : e.isOperation = true := by
    cases e with
    | binary _ _ _ | isNull _ _ | inList _ _ => rfl
    | column _ _ | param _ | text _ | int _ | call _ _ | case _ _ _ | rowNumber _ _ => cases h
  rw [operandPieces, if_pos hoperation, glyphs_parenthesised]

end Glyphs

theorem typed_int_ne_nil (n : Int) : typed (toString n) ≠ [] := by
  intro h
  have hempty : toString n = "" := typed_injective h
  rw [Int.toString_eq_repr, Int.repr_eq_if] at hempty
  split at hempty
  · exact Nat.repr_ne_empty hempty
  · exact absurd (String.append_eq_empty_iff.1 hempty).1 (by decide)

theorem opens_char {c : Char} (hc : isPunctuation c = false) (rest : List Glyph) : Opens (.char c :: rest) := by
  refine ⟨.char c, rest, rfl, fun d hd => ?_⟩
  cases hd
  exact hc

/-- No operand begins with punctuation. -/
theorem opens_operand {e : Expr} (he : e.Callable) : Opens (glyphs (operandPieces e e.pieces)) := by
  cases e with
  | column table name =>
    rw [glyphs_column, typed_quotedName]
    exact opens_char rfl _
  | param value => exact ⟨.bound value, [], rfl, nofun⟩
  | text s =>
    rw [glyphs_textLiteral, typed_quotedText]
    exact opens_char rfl _
  | int n =>
    rw [glyphs_int]
    exact opens_of_class (fun _ => isNumeral_of_isPunctuation) (typed_int_ne_nil _) fun _ => isNumeral_of_mem_int
  | call function arguments =>
    obtain ⟨hne, hword⟩ := isWord_of_isIdentifier (List.forall_mem_cons.1 he).1
    rw [glyphs_call]
    exact (opens_of_class (fun _ => isWord_of_isPunctuation) hne hword).append _
  | case condition result otherwise =>
    rw [glyphs_case]
    exact opens_char rfl _
  | rowNumber partitionBy orderBy =>
    rw [glyphs_rowNumber]
    exact opens_char rfl _
  | binary _ _ _ | isNull _ _ | inList _ _ =>
    rw [glyphs_operation rfl]
    exact opens_char rfl _

theorem opens_pieces {e : Expr} (he : e.Callable) : Opens (glyphs e.pieces) := by
  rw [Expr.glyphs_pieces]
  exact (opens_operand he.head).append _

theorem formAfterWord_no_arguments {r : List Glyph} (hr : Begins operandEnds r) :
    formAfterWord (.char '(' :: .char ')' :: r) = .call := by
  have hover : Apart [" OV"] operandEnds := by decide
  unfold formAfterWord
  split
  · rename_i heq
    cases heq
    exact absurd rfl (hover.ne hr _)
  · rfl
  · rename_i heq
    cases heq
  · rename_i h _
    exact absurd rfl (h _)

theorem formAfterWord_arguments {gs : List Glyph} (h : Opens gs) : formAfterWord (.char '(' :: gs) = .call := by
  obtain ⟨g, rest, rfl, hg⟩ := h
  unfold formAfterWord
  split
  · rename_i heq
    cases heq
    cases hg ')' rfl
  · rfl
  · rename_i heq
    cases heq
  · rename_i h _
    exact absurd rfl (h _)

/-- The form of an operand shows by its first glyphs. -/
theorem formOf_operand {e : Expr} (he : e.Callable) {r : List Glyph} (hr : Begins operandEnds r) :
    formOf (glyphs (operandPieces e e.pieces) ++ r) = e.form := by
  cases e with
  | column table name =>
    rw [glyphs_column, typed_quotedName]
    rfl
  | param value => rfl
  | text s =>
    rw [glyphs_textLiteral, typed_quotedText]
    rfl
  | int n =>
    have hother : ∀ g ∈ r.head?, g.isWord = false :=
      hr.head?_of_class punctuated_operandEnds fun _ => isWord_of_isPunctuation
    rw [glyphs_int, Int.toString_eq_repr, Int.repr_eq_if]
    split
    · have hne : typed n.toInt.toNat.repr ≠ [] := fun h => Nat.repr_ne_empty (typed_injective h)
      have hword : ∀ g ∈ typed n.toInt.toNat.repr, g.isWord = true := by
        intro g hg
        obtain ⟨c, hc, rfl⟩ := List.mem_map.1 hg
        rw [Glyph.isWord, Char.isAlphanum, isDigit_of_mem_nat hc, Bool.or_true, Bool.true_or]
      rw [formOf_word hne hword hother]
      exact formAfterWord_of_begins hr
    · rw [typed_append]
      rfl
  | call function arguments =>
    obtain ⟨hne, hword⟩ := isWord_of_isIdentifier (List.forall_mem_cons.1 he).1
    have hparen : ∀ g ∈ (typed "(" ++ (glyphs (joinPieces ", " (piecesOfAll arguments)) ++ typed ")") ++ r).head?,
        g.isWord = false := by
      rintro g hg
      cases hg
      rfl
    rw [glyphs_call, List.append_assoc, formOf_word hne hword hparen]
    cases arguments with
    | nil => exact formAfterWord_no_arguments hr
    | cons a arguments =>
      have ha : a.Callable := callable_all.1 (List.forall_mem_cons.1 he).2 a List.mem_cons_self
      rw [piecesOfAll, glyphs_joinPieces_cons]
      exact formAfterWord_arguments ((((opens_pieces ha).append _).append _).append _)
  | case condition result otherwise =>
    rw [glyphs_case]
    rfl
  | rowNumber partitionBy orderBy =>
    rw [glyphs_rowNumber]
    rfl
  | binary _ _ _ | isNull _ _ | inList _ _ =>
    rw [glyphs_operation rfl]
    rfl

theorem form_unique {e e' : Expr} (he : e.Callable) (he' : e'.Callable) {r r' : List Glyph} (hr : Begins operandEnds r)
    (hr' : Begins operandEnds r')
    (h : glyphs (operandPieces e e.pieces) ++ r = glyphs (operandPieces e' e'.pieces) ++ r') : e'.form = e.form := by
  rw [← formOf_operand he hr, h, formOf_operand he' hr']

/-- An expression that is no operation can be read back if it can be told from others of its form. -/
theorem readable_of_form {e : Expr} (hjoint : e.joint? = none) (he : e.Callable)
    (h : ∀ e' : Expr, e'.form = e.form → e'.Callable → ∀ r r', Begins operandEnds r → Begins operandEnds r' →
      glyphs (operandPieces e e.pieces) ++ r = glyphs (operandPieces e' e'.pieces) ++ r' → e = e' ∧ r = r') :
    e.Readable :=
  readable_of_operand hjoint fun e' he' r r' hr hr' heq => h e' (form_unique he he' hr hr' heq) he' r r' hr hr' heq

/-- An operation stands in parentheses as an operand. -/
theorem readable_of_whole {e : Expr} (he : e.Callable) (hform : e.form = .operation)
    (h : Legible (fun e => glyphs e.pieces) Expr.Callable exprEnds e) : e.Readable := by
  refine ⟨h, ?_⟩
  intro e' he' r r' hr hr' heq
  have hform' : e'.form = .operation := (form_unique he he' hr hr' heq).trans hform
  simp only [glyphs_operation hform, glyphs_operation hform', List.append_assoc] at heq
  have hparen : ")" ∈ exprEnds := by decide
  obtain ⟨rfl, hrest⟩ := h e' he' _ _ (begins_typed hparen r) (begins_typed hparen r') (List.append_cancel_left heq)
  exact ⟨rfl, List.append_cancel_left hrest⟩

end TreeQuery.Sql
