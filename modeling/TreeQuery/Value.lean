import TreeQuery.Calendar.Date
import TreeQuery.Number.Style
import TreeQuery.Text.Quoted

/-!
# Values

The literals that filters compare with. Two values are the same if they have one kind and equal contents, where
floats are compared as numbers; `same` is symmetric and transitive (`same_comm`, `same_trans`).
-/

namespace TreeQuery

/-- The operand of a filter. -/
inductive Value where
  | int (n : Int64)
  | float (x : Binary64)
  | date (d : Date)
  | string (s : String)
  | list (items : List Value)
  deriving Inhabited

/-- The kind of a value. -/
inductive ValueKind where
  | integer
  | float
  | date
  | string
  | list
  deriving DecidableEq, Repr

/-- The name of a kind in messages. -/
def ValueKind.name : ValueKind → String
  | .integer => "integer"
  | .float => "float"
  | .date => "date"
  | .string => "string"
  | .list => "list"

namespace Value

/-- The kind of a value. -/
def kind : Value → ValueKind
  | .int _ => .integer
  | .float _ => .float
  | .date _ => .date
  | .string _ => .string
  | .list _ => .list

/-- Whether a value is a string. -/
def isString (v : Value) : Bool := v.kind == .string

/-- Whether a value is a list. -/
def isList (v : Value) : Bool := v.kind == .list

mutual

/-- Whether two values are equal, floats by their numbers. -/
def same : Value → Value → Bool
  | .int a, .int b => a == b
  | .float x, .float y => x.same y
  | .date a, .date b => a == b
  | .string a, .string b => a == b
  | .list xs, .list ys => sameItems xs ys
  | _, _ => false

/-- Whether two lists have the same values in the same order. -/
def sameItems : List Value → List Value → Bool
  | [], [] => true
  | x :: xs, y :: ys => same x y && sameItems xs ys
  | _, _ => false

end

mutual

/-- A value as messages write it. -/
def chars : Value → List Char
  | .int n => (toString n.toInt).toList
  | .float x => x.text.toList
  | .date d => d.chars
  | .string s => Text.quotedChars s.toList
  | .list items => '[' :: (itemChars items ++ [']'])

/-- The values of a list, with a comma and a space between them. -/
def itemChars : List Value → List Char
  | [] => []
  | [v] => chars v
  | v :: w :: rest => chars v ++ ',' :: ' ' :: itemChars (w :: rest)

end

/-- A value as messages write it. -/
def text (v : Value) : String := String.ofList v.chars

mutual

theorem same_comm : ∀ v w : Value, v.same w = w.same v
  | .int a, w => by cases w <;> simp [same, Bool.beq_comm]
  | .float x, w => by cases w <;> simp [same, Binary64.same_comm]
  | .date a, w => by cases w <;> simp [same, Bool.beq_comm]
  | .string a, w => by cases w <;> simp [same, Bool.beq_comm]
  | .list xs, w => by cases w <;> simp [same, sameItems_comm xs]

theorem sameItems_comm : ∀ xs ys : List Value, sameItems xs ys = sameItems ys xs
  | [], ys => by cases ys <;> simp [sameItems]
  | x :: xs, ys => by cases ys <;> simp [sameItems, same_comm x, sameItems_comm xs]

end

mutual

theorem same_trans : ∀ {u v w : Value}, u.same v = true → v.same w = true → u.same w = true
  | .int a, v, w, huv, hvw => by cases v <;> simp [same] at huv; subst huv; exact hvw
  | .float x, v, w, huv, hvw => by
    cases v <;> simp [same] at huv
    cases w <;> simp [same] at hvw
    exact Binary64.same_trans huv hvw
  | .date a, v, w, huv, hvw => by cases v <;> simp [same] at huv; subst huv; exact hvw
  | .string a, v, w, huv, hvw => by cases v <;> simp [same] at huv; subst huv; exact hvw
  | .list xs, v, w, huv, hvw => by
    cases v <;> simp [same] at huv
    cases w <;> simp [same] at hvw
    exact sameItems_trans huv hvw

theorem sameItems_trans : ∀ {xs ys zs : List Value},
    sameItems xs ys = true → sameItems ys zs = true → sameItems xs zs = true
  | [], ys, zs, hxy, hyz => by cases ys <;> simp [sameItems] at hxy; exact hyz
  | x :: xs, ys, zs, hxy, hyz => by
    cases ys <;> simp [sameItems] at hxy
    cases zs <;> simp [sameItems] at hyz
    simp only [sameItems, Bool.and_eq_true]
    exact ⟨same_trans hxy.1 hyz.1, sameItems_trans hxy.2 hyz.2⟩

end

/-- Equal values are equal to the same values. -/
theorem same_congr {u v w : Value} (h : v.same w = true) : u.same v = u.same w := by
  refine Bool.eq_iff_iff.2 ⟨fun huv => same_trans huv h, fun huw => same_trans huw ?_⟩
  rw [same_comm, h]

/-- Equal values are of one kind. -/
theorem kind_eq_of_same {v w : Value} (h : v.same w = true) : v.kind = w.kind := by
  cases v <;> cases w <;> first | rfl | cases h

theorem isList_eq_of_same {v w : Value} (h : v.same w = true) : v.isList = w.isList := by
  rw [isList, isList, kind_eq_of_same h]

theorem kinds_eq_of_sameItems {xs ys : List Value} (h : sameItems xs ys = true) : xs.map kind = ys.map kind := by
  induction xs generalizing ys with
  | nil =>
    cases ys with
    | nil => rfl
    | cons _ _ => cases h
  | cons x xs ih =>
    cases ys with
    | nil => cases h
    | cons y ys =>
      rw [sameItems, Bool.and_eq_true] at h
      rw [List.map_cons, List.map_cons, kind_eq_of_same h.1, ih h.2]

end Value

end TreeQuery
