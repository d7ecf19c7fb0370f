/-!
# Binary floating-point numbers

A number of the 64-bit binary format, held as its bits. Its finite values are read as an integer
times a power of two, so everything about them is decided in exact integer arithmetic.
-/

namespace AccessMatrix

/-- A 64-bit binary floating-point number by its bits. -/
structure Binary64 where
  bits : UInt64
  deriving DecidableEq, Repr, Inhabited

namespace Binary64

/-- Whether the sign bit is set. -/
def isNegative (x : Binary64) : Bool := Nat.pow 2 63 ≤ x.bits.toNat

/-- The biased exponent. -/
def biased (x : Binary64) : Nat := x.bits.toNat / Nat.pow 2 52 % Nat.pow 2 11

/-- The stored fraction. -/
def fraction (x : Binary64) : Nat := x.bits.toNat % Nat.pow 2 52

/-- Whether the number is neither infinite nor undefined. -/
def isFinite (x : Binary64) : Bool := x.biased != 2047

/-- Whether the number is undefined. -/
def isUndefined (x : Binary64) : Bool := x.biased == 2047 && x.fraction != 0

/-- The integer that a power of two scales to the magnitude of a finite number. -/
def significand (x : Binary64) : Nat :=
  if x.biased = 0 then x.fraction else x.fraction + Nat.pow 2 52

/-- The power of two that scales the significand. -/
def exponent (x : Binary64) : Int := (max x.biased 1 : Nat) - 1075

/-- Whether the number is zero of either sign. -/
def isZero (x : Binary64) : Bool := x.biased == 0 && x.fraction == 0

/-- The magnitude of a finite number as a quotient of naturals, the divisor a power of two. -/
def magnitude (x : Binary64) : Nat × Nat :=
  (x.significand * Nat.pow 2 x.exponent.toNat, Nat.pow 2 (-x.exponent).toNat)

/-- Put the sign of the number on a natural number. -/
def signed (x : Binary64) (n : Nat) : Int := if x.isNegative then -(n : Int) else n

/-- A finite number without its part after the point. -/
def truncate? (x : Binary64) : Option Int :=
  if x.isFinite then some (x.signed (x.magnitude.1 / x.magnitude.2)) else none

/-- A finite number rounded down. -/
def floor? (x : Binary64) : Option Int :=
  if x.isFinite then some (Int.fdiv (x.signed x.magnitude.1) x.magnitude.2) else none

/-- The integer that the number is equal to. -/
def toInt? (x : Binary64) : Option Int :=
  if x.isFinite && x.magnitude.1 % x.magnitude.2 == 0 then x.truncate? else none

/-- Sameness as keys: the zeros are one key, and so are all undefined numbers. -/
def same (x y : Binary64) : Bool :=
  x.bits == y.bits || x.isZero && y.isZero || x.isUndefined && y.isUndefined

end Binary64

end AccessMatrix
