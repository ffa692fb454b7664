import TreeQuery.Number.Bounds
import TreeQuery.Number.Style

/-!
# Reading number literals

The number that a literal of a document stands for. A literal with neither a fraction nor an exponent is an integer if
it fits 64 bits; minus zero is none. As a float, a literal is read quickly rather than exactly: as many leading digits
as fit 64 bits are kept, and the result is scaled once by a power of ten, so that it may be off in its last place.
-/

namespace TreeQuery.Number

/-- The value of a decimal digit. -/
def digitValue (c : Char) : Nat := c.toNat - '0'.toNat

/-- The significand with further digits as long as it fits 64 bits, and how many digits are left over. -/
def growSignificand (significand : Nat) : List Char → Nat × Nat
  | [] => (significand, 0)
  | d :: rest =>
    let next := significand * 10 + digitValue d
    if next < UInt64.size then growSignificand next rest else (significand, rest.length + 1)

namespace Literal

/-- The integer of a literal, if it has neither a fraction nor an exponent and is not minus zero. -/
def integer? (l : Literal) : Option Int :=
  let magnitude := Nat.ofDigitChars 10 l.whole 0
  if l.fraction ≠ [] ∨ l.exponent ≠ none then none
  else if l.negative then (if magnitude = 0 then none else some (-magnitude))
  else some magnitude

/-- The signed integer of 64 bits that a literal stands for. -/
def int64? (l : Literal) : Option Int64 :=
  l.integer?.bind fun n => if -(int64Bound : Int) ≤ n ∧ n < int64Bound then some (Int64.ofInt n) else none

/-- The unsigned integer of 64 bits that a literal stands for. -/
def uint64? (l : Literal) : Option UInt64 :=
  l.integer?.bind fun n => if 0 ≤ n ∧ n < UInt64.size then some (UInt64.ofNat n.toNat) else none

/-- A number divided by a power of ten, in steps that the format can hold. -/
def scaleDown (x : Binary64) (power : Nat) : Binary64 :=
  if power ≤ 308 then x.div (Binary64.ofDecimal false 1 power)
  else if x.isZero then x
  else scaleDown (x.div (Binary64.ofDecimal false 1 308)) (power - 308)
termination_by power

/-- A number multiplied by a power of ten, unless the result is out of range. -/
def scaleUp? (x : Binary64) (power : Nat) : Option Binary64 :=
  if power ≤ 308 then
    let y := x.mul (Binary64.ofDecimal false 1 power)
    if y.isInfinite then none else some y
  else if x.isZero then some x
  else none

/-- The power of ten that a literal's exponent names. -/
def exponentValue (l : Literal) : Int :=
  match l.exponent with
  | some (negative, digits) => if negative then -(Nat.ofDigitChars 10 digits 0 : Int) else Nat.ofDigitChars 10 digits 0
  | none => 0

/-- The float that a literal stands for, unless it is out of range. -/
def binary64? (l : Literal) : Option Binary64 :=
  let (significand, left) := growSignificand 0 l.whole
  let (significand, unread) := growSignificand significand l.fraction
  let power := left - (l.fraction.length - unread : Int) + l.exponentValue
  let magnitude := Binary64.ofNat significand
  let scaled := if 0 ≤ power then scaleUp? magnitude power.toNat else some (scaleDown magnitude (-power).toNat)
  scaled.map fun x => if l.negative then x.neg else x

end Literal

end TreeQuery.Number
