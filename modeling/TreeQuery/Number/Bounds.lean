/-!
# Bounds of machine integers

Below which number the integers of 64 bits with a sign are; those without one are below `UInt64.size`.
-/

namespace TreeQuery.Number

/-- The sixty-third power of two: integers of 64 bits with a sign are below it, and not below its negative. -/
def int64Bound : Nat := 0x8000000000000000

theorem toInt_lt_int64Bound (n : Int64) : n.toInt < int64Bound := Int64.toInt_lt n

theorem neg_int64Bound_le_toInt (n : Int64) : -(int64Bound : Int) ≤ n.toInt := Int64.le_toInt n

end TreeQuery.Number
