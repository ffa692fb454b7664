/-!
# Field paths

The left-hand side of a filter: the relations to go through, and a field of the level that is reached.
-/

namespace TreeQuery

/-- A field, reached through relations in order. A path through no relation is plain, any other is dotted. -/
structure FieldPath where
  via : List String
  field : String
  deriving DecidableEq, Repr

namespace FieldPath

/-- The segments of a path: its relations, then its field. -/
def segments (p : FieldPath) : List String := p.via ++ [p.field]

/-- The path with the given segments; there is none without a segment. -/
def ofSegments? : List String → Option FieldPath
  | [] => none
  | [field] => some ⟨[], field⟩
  | head :: next :: rest => (ofSegments? (next :: rest)).map fun p => ⟨head :: p.via, p.field⟩

/-- The path with the given segments, if it goes through a relation. -/
def ofDotted? (segments : List String) : Option FieldPath :=
  if 2 ≤ segments.length then ofSegments? segments else none

/-- What is said of segments that are no path through a relation. -/
def notDottedMessage (segments : List String) : String := "'" ++ ".".intercalate segments ++ "' is not a dotted path"

/-- Whether a path goes through a relation. -/
def isDotted (p : FieldPath) : Bool := !p.via.isEmpty

/-- A dotted path without its first relation, as seen from the level that the relation reaches. -/
def descend (p : FieldPath) : FieldPath := ⟨p.via.drop 1, p.field⟩

/-- A path as query text: the segments with dots between them. -/
def text (p : FieldPath) : String := ".".intercalate p.segments

theorem ofSegments?_segments (p : FieldPath) : ofSegments? p.segments = some p := by
  obtain ⟨via, field⟩ := p
  induction via with
  | nil => rfl
  | cons head via ih =>
    unfold segments at ih ⊢
    cases via with
    | nil => rfl
    | cons next rest => simp only [List.cons_append] at ih ⊢; rw [ofSegments?, ih]; rfl

theorem segments_of_ofSegments? {segments : List String} {p : FieldPath} (h : ofSegments? segments = some p) :
    p.segments = segments := by
  induction segments generalizing p with
  | nil => cases h
  | cons head rest ih =>
    cases rest with
    | nil => cases h; rfl
    | cons next rest =>
      simp only [ofSegments?, Option.map_eq_some_iff] at h
      obtain ⟨q, hq, rfl⟩ := h
      show head :: q.segments = _
      rw [ih hq]

end FieldPath

end TreeQuery
