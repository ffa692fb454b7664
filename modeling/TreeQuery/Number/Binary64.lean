/-!
# Binary floating point of 64 bits

A number of the 64-bit binary interchange format, held by its bits and computed with exactly: no operation of this
module rounds twice.

- `same` compares as the format does: a NaN differs from everything, the two zeros are equal; it is symmetric and
  transitive (`same_comm`, `same_trans`), and every number that is no NaN is the same as itself (`same_self`);
- `ofRatio` rounds a ratio of two naturals to the nearest number, a tie to the even one.
-/

namespace TreeQuery

/-- A number of the 64-bit binary interchange format, by its bits. -/
structure Binary64 where
  bits : UInt64
  deriving DecidableEq, Inhabited

namespace Binary64

/-- The weight of the sign bit, the sixty-third power of two. -/
def signWeight : Nat := 0x8000000000000000

/-- The weight of the lowest bit of the exponent, the fifty-second power of two. A significand below it is that of a
number too small to have a leading bit of its own. -/
def exponentWeight : Nat := 0x10000000000000

/-- The bits of infinity: an exponent of ones alone, and nothing after it. -/
def infinityBits : Nat := 0x7ff0000000000000

/-- The bits without the sign. -/
def magnitudeBits (x : Binary64) : Nat := x.bits.toNat % signWeight

/-- Whether the sign bit is set. -/
def isNegative (x : Binary64) : Bool := signWeight ≤ x.bits.toNat

/-- Whether the bits stand for no number. -/
def isNaN (x : Binary64) : Bool := infinityBits < x.magnitudeBits

/-- Whether the bits stand for one of the infinities. -/
def isInfinite (x : Binary64) : Bool := x.magnitudeBits == infinityBits

/-- Whether the number is one of the two zeros. -/
def isZero (x : Binary64) : Bool := x.magnitudeBits == 0

/-- The whole number `m` of a finite magnitude `m * 2 ^ q`. -/
def significand (x : Binary64) : Nat :=
  if x.magnitudeBits < exponentWeight then x.magnitudeBits else exponentWeight + x.magnitudeBits % exponentWeight

/-- The power `q` of a finite magnitude `m * 2 ^ q`. -/
def power (x : Binary64) : Int :=
  if x.magnitudeBits < exponentWeight then -1074 else (x.magnitudeBits / exponentWeight : Nat) - 1075

/-- Equality of numbers: a NaN equals nothing, and the two zeros are equal. -/
def same (x y : Binary64) : Bool :=
  !x.isNaN && !y.isNaN && (x.bits == y.bits || (x.isZero && y.isZero))

theorem same_comm (x y : Binary64) : x.same y = y.same x := by
  simp only [same, Bool.and_comm x.isZero, Bool.beq_comm (a := x.bits)]
  cases x.isNaN <;> cases y.isNaN <;> simp

theorem same_self (x : Binary64) : x.same x = !x.isNaN := by simp [same]

theorem same_trans {x y z : Binary64} (hxy : x.same y = true) (hyz : y.same z = true) : x.same z = true := by
  simp only [same, Bool.and_eq_true, Bool.not_eq_true', Bool.or_eq_true, beq_iff_eq] at *
  obtain ⟨⟨hx, _⟩, hxy⟩ := hxy
  obtain ⟨⟨_, hz⟩, hyz⟩ := hyz
  refine ⟨⟨hx, hz⟩, ?_⟩
  rcases hxy with hxy | ⟨hx0, hy0⟩
  · obtain rfl : x = y := congrArg mk hxy
    exact hyz
  · rcases hyz with hyz | ⟨_, hz0⟩
    · obtain rfl : y = z := congrArg mk hyz
      exact .inr ⟨hx0, hy0⟩
    · exact .inr ⟨hx0, hz0⟩

/-- The number with a sign and the bits of a magnitude. -/
def ofSign (negative : Bool) (magnitude : Nat) : Binary64 :=
  ⟨UInt64.ofNat (if negative then signWeight + magnitude else magnitude)⟩

/-- A quotient of naturals to the nearest whole number, a tie to the even one. -/
def roundQuotient (num den : Nat) : Nat :=
  let whole := num / den
  let twice := 2 * (num % den)
  if twice < den then whole else if den < twice then whole + 1 else whole + whole % 2

/-- The largest power of two, as an exponent, that is at most `num / den`; both are positive. -/
def floorLog2 (num den : Nat) : Int :=
  let guess : Int := (num.log2 : Int) - den.log2
  let fits := if 0 ≤ guess then den * Nat.pow 2 guess.toNat ≤ num else den ≤ num * Nat.pow 2 (-guess).toNat
  if fits then guess else guess - 1

/-- The number nearest to `num / den`, a tie to the even one; what is too large becomes infinite. -/
def ofRatio (negative : Bool) (num den : Nat) : Binary64 :=
  if num = 0 then ofSign negative 0
  else
    let power := max (floorLog2 num den - 52) (-1074)
    let significand :=
      if 0 ≤ power then roundQuotient num (den * Nat.pow 2 power.toNat)
      else roundQuotient (num * Nat.pow 2 (-power).toNat) den
    ofSign negative (min ((power + 1074).toNat * exponentWeight + significand) infinityBits)

/-- The number nearest to `digits * 10 ^ exponent`; exponents far outside the range of the format are cut short. -/
def ofDecimal (negative : Bool) (digits : Nat) (exponent : Int) : Binary64 :=
  let places := (Nat.toDigits 10 digits).length + exponent
  if digits = 0 ∨ places < -400 then ofSign negative 0
  else if 400 < places then ofSign negative infinityBits
  else if 0 ≤ exponent then ofRatio negative (digits * Nat.pow 10 exponent.toNat) 1
  else ofRatio negative digits (Nat.pow 10 (-exponent).toNat)

/-- A finite magnitude as a ratio. -/
def ratio (x : Binary64) : Nat × Nat :=
  if 0 ≤ x.power then (x.significand * Nat.pow 2 x.power.toNat, 1) else (x.significand, Nat.pow 2 (-x.power).toNat)

/-- The product of two finite numbers, rounded once. -/
def mul (x y : Binary64) : Binary64 :=
  ofRatio (x.isNegative != y.isNegative) (x.ratio.1 * y.ratio.1) (x.ratio.2 * y.ratio.2)

/-- The quotient of two finite numbers, of which the second is not zero, rounded once. -/
def div (x y : Binary64) : Binary64 :=
  ofRatio (x.isNegative != y.isNegative) (x.ratio.1 * y.ratio.2) (x.ratio.2 * y.ratio.1)

/-- A natural number, rounded. -/
def ofNat (n : Nat) : Binary64 := ofRatio false n 1

/-- The number with the other sign. -/
def neg (x : Binary64) : Binary64 := ofSign (!x.isNegative) x.magnitudeBits

/-- Positive infinity. -/
def infinity : Binary64 := ofSign false infinityBits

/-- A NaN. -/
def nan : Binary64 := ofSign false 0x7ff8000000000000

example : ofDecimal false 1 0 = ⟨0x3ff0000000000000⟩ := by decide +kernel
example : ofDecimal true 15 (-1) = ⟨0xbff8000000000000⟩ := by decide +kernel
example : (ofDecimal false 1 309).isInfinite ∧ (ofDecimal false 1 (-324)).isZero := by decide +kernel

end Binary64

end TreeQuery
