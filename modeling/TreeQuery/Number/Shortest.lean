import TreeQuery.Number.Binary64

/-!
# Shortest decimals

The decimal with the fewest digits that reads back as a given number, and of those the nearest to it. On the grid of
all decimals with a given number of digits only the two neighbours of the number have to be tried.
-/

namespace TreeQuery.Number

/-- A decimal `digits * 10 ^ exponent`. -/
structure Decimal where
  digits : Nat
  exponent : Int
  deriving DecidableEq

/-- Which of two decimals that are equally near is taken. -/
inductive Tie where
  | up
  | even

/-- A positive number with the reals that round to it: `low`, `value` and `high` over one denominator, and whether
the ends belong. -/
structure Rounding where
  low : Nat
  value : Nat
  high : Nat
  denominator : Nat
  closed : Bool

/-- The reals that round to a positive finite number, in quarters of its last place. -/
def Rounding.ofBinary64 (x : Binary64) : Rounding :=
  let m := x.significand
  let q := x.power - 2
  let scale := Nat.pow 2 q.toNat
  let below := if m = Binary64.exponentWeight ∧ -1074 < x.power then 1 else 2
  ⟨(4 * m - below) * scale, 4 * m * scale, (4 * m + 2) * scale, Nat.pow 2 (-q).toNat, m % 2 == 0⟩

/-- Whether `digits` whole units of `unit` lie among the reals that round to the number. -/
def Rounding.admits (r : Rounding) (unit digits : Nat) : Bool :=
  let at_ := digits * unit
  if r.closed then r.low ≤ at_ && at_ ≤ r.high else r.low < at_ && at_ < r.high

/-- The nearest decimal in units of `10 ^ exponent` that rounds to the number, if there is one. -/
def Rounding.onGrid? (r : Rounding) (tie : Tie) (exponent : Int) : Option Decimal :=
  let scaled : Rounding :=
    if 0 ≤ exponent then r
    else
      let s := Nat.pow 10 (-exponent).toNat
      ⟨r.low * s, r.value * s, r.high * s, r.denominator, r.closed⟩
  let unit := r.denominator * Nat.pow 10 exponent.toNat
  let below := scaled.value / unit
  let twice := 2 * (scaled.value % unit)
  let nearerIsAbove := unit < twice || (unit == twice && match tie with | .up => true | .even => below % 2 == 1)
  match scaled.admits unit below, scaled.admits unit (below + 1) with
  | true, true => some ⟨if nearerIsAbove then below + 1 else below, exponent⟩
  | true, false => some ⟨below, exponent⟩
  | false, true => some ⟨below + 1, exponent⟩
  | false, false => none

/-- The exponent of the first decimal place of a positive number. -/
def Rounding.firstPlace (r : Rounding) : Int :=
  if r.denominator ≤ r.value then (Nat.toDigits 10 (r.value / r.denominator)).length - 1
  else -((Nat.toDigits 10 ((r.denominator - 1) / r.value)).length : Int)

/-- The first hit on ever finer grids; with seventeen digits there always is one. -/
def Rounding.search (r : Rounding) (tie : Tie) : Nat → Int → Decimal
  | 0, exponent => ⟨r.value * Nat.pow 10 (-exponent).toNat / (r.denominator * Nat.pow 10 exponent.toNat), exponent⟩
  | tries + 1, exponent => (r.onGrid? tie exponent).getD (r.search tie tries (exponent - 1))

/-- A decimal without trailing zeros in its digits; `fuel` bounds how many are cut off. -/
def Decimal.strip (d : Decimal) : Nat → Decimal
  | 0 => d
  | fuel + 1 => if d.digits % 10 = 0 ∧ d.digits ≠ 0 then strip ⟨d.digits / 10, d.exponent + 1⟩ fuel else d

/-- The shortest decimal that reads back as a positive finite number. -/
def shortest (tie : Tie) (x : Binary64) : Decimal :=
  let r := Rounding.ofBinary64 x
  (r.search tie 17 r.firstPlace).strip 17

example : shortest .up (Binary64.ofDecimal false 1 (-1)) = ⟨1, -1⟩ := by decide +kernel
example : shortest .up ⟨1⟩ = ⟨5, -324⟩ := by decide +kernel
example : shortest .up ⟨0x7fefffffffffffff⟩ = ⟨17976931348623157, 292⟩ := by decide +kernel
example : shortest .up (Binary64.ofDecimal false 1 22) = ⟨1, 22⟩ := by decide +kernel

end TreeQuery.Number
