/-!
# Edit distance

The least number of characters to insert, delete or replace that turns one text into another, by rows of the usual
table: the row of a text `a` holds its distances to every beginning of `b`.
-/

namespace TreeQuery.Text

/-- The rest of the row after `c`: `diagonal` and `above` belong to the row before, `left` to the row being written. -/
def distanceCells (c : Char) : List Char → Nat → List Nat → Nat → List Nat
  | d :: ds, diagonal, up :: above, left =>
    let cell := min (if c = d then diagonal else diagonal + 1) (min (up + 1) (left + 1))
    cell :: distanceCells c ds up above cell
  | _, _, _, _ => []

/-- The row of a text that is one character longer. -/
def nextDistanceRow (b : List Char) (row : List Nat) (c : Char) : List Nat :=
  match row with
  | [] => []
  | first :: above => (first + 1) :: distanceCells c b first above (first + 1)

/-- The least number of one-character edits between two texts. -/
def editDistance (a b : List Char) : Nat :=
  (a.foldl (nextDistanceRow b) (List.range (b.length + 1))).getLastD 0

example : editDistance "kitten".toList "sitting".toList = 3 := by decide
example : editDistance "".toList "abc".toList = 3 ∧ editDistance "abc".toList "".toList = 3 := by decide

end TreeQuery.Text
