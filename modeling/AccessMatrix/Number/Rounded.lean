import AccessMatrix.Number.Shortest

/-!
# Rounded decimals

A finite binary number is also written with a stated number of digits: so many after the point, or
so many in all. Its exact value is rounded to the nearest decimal of that kind, the even one on a
tie, and the point stands among the digits or after the first of them.
-/

namespace AccessMatrix

namespace Binary64

/-- The magnitude in units of the last of some places after the point, rounded. -/
def inPlaces (x : Binary64) (places : Nat) : Nat :=
  nearest (x.magnitude.1 * Nat.pow 10 places) x.magnitude.2

/-- The magnitude with a positive count of digits in all, rounded. -/
def withDigits (x : Binary64) (count : Nat) : ShortDecimal :=
  if x.isZero then ⟨0, count, 0⟩
  else
    let size := decimalSize x.magnitude.1 x.magnitude.2
    let e := size - count
    let num := x.magnitude.1 * Nat.pow 10 (-e).toNat
    let den := x.magnitude.2 * Nat.pow 10 e.toNat
    let digits := nearest num den
    if digits = Nat.pow 10 count then ⟨Nat.pow 10 (count - 1), count, size⟩
    else ⟨digits, count, size - 1⟩

/-- The number nearest to an integer, unless the integer is beyond every finite number. -/
def ofInt? (n : Int) : Option Binary64 :=
  let magnitude := Float.ofScientific n.natAbs false 0
  let x : Binary64 := ⟨(if n < 0 then -magnitude else magnitude).toBits⟩
  if x.isFinite then some x else none

end Binary64

/-- How the part after the point is written: as it is, as it is but with the point even where
nothing follows it, or without the zeros that end it. -/
inductive FractionStyle where
  | plain | pointed | trimmed
  deriving DecidableEq, Repr

namespace FractionStyle

/-- A number with a part after the point. -/
def join (style : FractionStyle) (whole fraction : List Char) : List Char :=
  match style with
  | pointed => whole ++ '.' :: fraction
  | plain => if fraction.isEmpty then whole else whole ++ '.' :: fraction
  | trimmed =>
    let kept := (fraction.reverse.dropWhile (· = '0')).reverse
    if kept.isEmpty then whole else whole ++ '.' :: kept

/-- A natural number of digits with the point before the last of them. -/
def positional (style : FractionStyle) (places n : Nat) : List Char :=
  let digits := Nat.toDigits 10 n
  let digits := List.replicate (places + 1 - digits.length) '0' ++ digits
  style.join (digits.take (digits.length - places)) (digits.drop (digits.length - places))

/-- A decimal with the point after its first digit and an exponent of two digits or more. -/
def scientific (style : FractionStyle) (d : ShortDecimal) : List Char :=
  let digits := Nat.toDigits 10 d.digits
  let digits := digits ++ List.replicate (d.places - digits.length) '0'
  let power := Nat.toDigits 10 d.point.natAbs
  style.join (digits.take 1) (digits.drop 1) ++
    'e' :: (if d.point < 0 then '-' else '+') :: List.replicate (2 - power.length) '0' ++ power

end FractionStyle

namespace Binary64

/-- The magnitude with so many digits in all and the point among them, or with an exponent where it
is below a ten-thousandth or has more digits before the point. -/
def general (x : Binary64) (style : FractionStyle) (count : Nat) : List Char :=
  let d := x.withDigits count
  if d.point < -4 || (count : Int) ≤ d.point then style.scientific d
  else style.positional ((count : Int) - 1 - d.point).toNat d.digits

end Binary64

end AccessMatrix
