import TreeQuery.Proofs.Sql.Placeholders

/-!
# Glyphs

A statement as one sequence (`glyphs`): its characters, with the bound value in the place of each placeholder. A text
alone does not tell a placeholder from a question mark in a name; but a reader who skips what is quoted finds the
placeholders, so tracked pieces that make one statement have the same glyphs (`glyphs_eq_of_statement_eq`).
-/

namespace TreeQuery.Sql

/-- One sign of a statement. -/
inductive Glyph where
  | char (c : Char)
  /-- A placeholder with the value that it binds. -/
  | bound (value : Value)

/-- A text as glyphs. -/
def typed (s : String) : List Glyph := s.toList.map Glyph.char

/-- A piece as glyphs. -/
def Piece.glyphs : Piece → List Glyph
  | .text s => typed s
  | .placeholder value => [.bound value]

/-- Pieces as glyphs. -/
def glyphs (pieces : List Piece) : List Glyph := pieces.flatMap Piece.glyphs

@[simp] theorem glyphs_nil : glyphs [] = [] := rfl

@[simp] theorem glyphs_text (s : String) (ps : List Piece) : glyphs (.text s :: ps) = typed s ++ glyphs ps := rfl

@[simp] theorem glyphs_placeholder (value : Value) (ps : List Piece) :
    glyphs (.placeholder value :: ps) = .bound value :: glyphs ps := rfl

@[simp] theorem glyphs_append (ps rs : List Piece) : glyphs (ps ++ rs) = glyphs ps ++ glyphs rs :=
  List.flatMap_append

theorem typed_append (a b : String) : typed (a ++ b) = typed a ++ typed b := by
  rw [typed, String.toList_append, List.map_append]
  rfl

theorem typed_injective {a b : String} (h : typed a = typed b) : a = b :=
  String.toList_inj.1 ((List.map_inj_right fun _ _ => Glyph.char.inj).1 h)

/-! ## Glyphs of a statement -/

/-- A text that starts at place `i`, with values put over the characters at their places, which are in order. -/
def overlay : Nat → List Char → List (Nat × Value) → List Glyph
  | _, [], _ => []
  | i, c :: cs, [] => .char c :: overlay (i + 1) cs []
  | i, c :: cs, (j, value) :: places =>
    if i = j then .bound value :: overlay (i + 1) cs places
    else .char c :: overlay (i + 1) cs ((j, value) :: places)

theorem overlay_append : ∀ {cs ds : List Char} {i : Nat} {places : List (Nat × Value)},
    (∀ p ∈ places, i + cs.length ≤ p.1) →
      overlay i (cs ++ ds) places = cs.map Glyph.char ++ overlay (i + cs.length) ds places
  | [], _, _, _, _ => rfl
  | c :: cs, ds, i, places, h => by
    have hrest : ∀ p ∈ places, i + 1 + cs.length ≤ p.1 := by
      intro p hp
      have hle := h p hp
      rw [List.length_cons] at hle
      omega
    have ih := @overlay_append cs ds (i + 1) places hrest
    rw [List.length_cons, Nat.add_comm cs.length 1, ← Nat.add_assoc]
    cases places with
    | nil => exact congrArg (Glyph.char c :: ·) ih
    | cons p places =>
      obtain ⟨j, value⟩ := p
      have hne : i ≠ j := by
        have hle := hrest (j, value) List.mem_cons_self
        omega
      rw [List.cons_append, overlay, if_neg hne, ih]
      rfl

theorem le_of_mem_placements : ∀ {ps : List Piece} {i : Nat} {p : Nat × Value}, p ∈ placements i ps → i ≤ p.1
  | [], _, _, h => nomatch h
  | .text s :: ps, i, p, h => by
    have hle := le_of_mem_placements (show p ∈ placements (i + s.toList.length) ps from h)
    omega
  | .placeholder value :: ps, i, p, h => by
    rcases List.mem_cons.1 h with rfl | h
    · exact Nat.le_refl i
    · have hle := le_of_mem_placements h
      omega

/-- The text and the placements tell the glyphs. -/
theorem glyphs_eq_overlay : ∀ (ps : List Piece) (i : Nat), glyphs ps = overlay i (pieceChars ps) (placements i ps)
  | [], _ => rfl
  | .text s :: ps, i => by
    rw [glyphs_text, pieceChars_text, placements, overlay_append fun _ => le_of_mem_placements,
      ← glyphs_eq_overlay ps (i + s.toList.length)]
    rfl
  | .placeholder value :: ps, i => by
    rw [glyphs_placeholder, pieceChars_placeholder, placements, overlay, if_pos rfl, ← glyphs_eq_overlay ps (i + 1)]

/-- Tracked pieces that make one statement have the same glyphs. -/
theorem glyphs_eq_of_statement_eq {ps qs : List Piece} (hps : Tracked ps) (hqs : Tracked qs)
    (h : Statement.ofPieces ps = .ofPieces qs) : glyphs ps = glyphs qs := by
  have hchars : pieceChars ps = pieceChars qs := by
    rw [← toList_sql_ofPieces, ← toList_sql_ofPieces, h]
  have hplaces : (placements 0 ps).map Prod.fst = (placements 0 qs).map Prod.fst := by
    rw [← hps.marks, ← hqs.marks, hchars]
  have hvalues : (placements 0 ps).map Prod.snd = (placements 0 qs).map Prod.snd := by
    rw [← params_ofPieces, ← params_ofPieces, h]
  have hplacements : placements 0 ps = placements 0 qs :=
    (List.zip_of_prod hplaces hvalues).trans (List.zip_of_prod rfl rfl).symm
  rw [glyphs_eq_overlay ps 0, glyphs_eq_overlay qs 0, hchars, hplacements]

end TreeQuery.Sql
