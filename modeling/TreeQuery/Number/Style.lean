import TreeQuery.Number.Shortest

/-!
# Styles of writing numbers

How the shortest digits of a number are laid out. Messages write every number positionally; a JSON document turns to
an exponent for very small and very large numbers and keeps a fraction on whole ones.
-/

namespace TreeQuery.Number

/-- A number as it is written: digits before the point, digits after it, and an exponent with its sign and digits. -/
structure Literal where
  negative : Bool
  whole : List Char
  fraction : List Char
  exponent : Option (Bool × List Char)
  deriving DecidableEq

/-- A minus sign, if there is one. -/
def signChars (negative : Bool) : List Char := if negative then ['-'] else []

/-- The characters of a literal. An exponent always has its sign. -/
def Literal.chars (l : Literal) : List Char :=
  signChars l.negative ++ l.whole ++ (if l.fraction.isEmpty then [] else '.' :: l.fraction) ++
    match l.exponent with
    | some (negative, digits) => 'e' :: (if negative then '-' else '+') :: digits
    | none => []

/-- A whole number as a literal. -/
def Literal.ofInt (n : Int) : Literal := ⟨n < 0, Nat.toDigits 10 n.natAbs, [], none⟩

/-- The layout of a decimal. -/
structure Style where
  /-- Which of two equally near decimals is taken. -/
  tie : Tie
  /-- The largest number of places before the point that are written positionally, if there is a limit. -/
  placesBefore : Option Nat
  /-- The largest number of zeros between the point and the first digit that are written, if there is a limit. -/
  zerosAfter : Option Nat
  /-- The fraction of a whole number. -/
  wholeFraction : List Char

/-- Messages write all places, and no fraction on a whole number. -/
def Style.message : Style := ⟨.up, none, none, []⟩

/-- JSON documents write up to 16 places before the point and up to four zeros after it, and a zero fraction on a
whole number. -/
def Style.json : Style := ⟨.even, some 16, some 4, ['0']⟩

/-- Whether a count is within a limit. -/
def withinLimit (limit : Option Nat) (count : Int) : Bool := limit.all fun n => count ≤ n

/-- The digits `ds` times `10 ^ exponent`, in a style. -/
def Style.layout (style : Style) (negative : Bool) (ds : List Char) (exponent : Int) : Literal :=
  let places := ds.length + exponent
  if 0 ≤ exponent ∧ withinLimit style.placesBefore places then
    ⟨negative, ds ++ List.replicate exponent.toNat '0', style.wholeFraction, none⟩
  else if exponent < 0 ∧ 0 < places ∧ withinLimit style.placesBefore places then
    ⟨negative, ds.take places.toNat, ds.drop places.toNat, none⟩
  else if places ≤ 0 ∧ withinLimit style.zerosAfter (-places) then
    ⟨negative, ['0'], List.replicate (-places).toNat '0' ++ ds, none⟩
  else
    ⟨negative, ds.take 1, ds.drop 1, some (places - 1 < 0, Nat.toDigits 10 (places - 1).natAbs)⟩

/-- A finite number in a style. -/
def Style.literal (style : Style) (x : Binary64) : Literal :=
  if x.isZero then ⟨x.isNegative, ['0'], style.wholeFraction, none⟩
  else
    let d := shortest style.tie x
    style.layout x.isNegative (Nat.toDigits 10 d.digits) d.exponent

end TreeQuery.Number

namespace TreeQuery

/-- A number as messages write it. -/
def Binary64.text (x : Binary64) : String :=
  if x.isNaN then "NaN"
  else if x.isInfinite then (if x.isNegative then "-inf" else "inf")
  else String.ofList (Number.Style.message.literal x).chars

example : String.ofList (Number.Style.json.literal (Binary64.ofDecimal false 15 15)).chars = "1.5e+16" ∧
    String.ofList (Number.Style.json.literal (Binary64.ofDecimal false 1 (-6))).chars = "1e-6" := by decide +kernel

example : (Binary64.ofDecimal true 15 (-1)).text = "-1.5" ∧
    (Binary64.ofDecimal false 1 21).text = "1000000000000000000000" := by decide +kernel

end TreeQuery
