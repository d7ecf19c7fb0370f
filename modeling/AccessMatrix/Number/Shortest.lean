import AccessMatrix.Number.Binary64

/-!
# Shortest decimals

A finite binary number is written with the fewest decimal digits that read back to it, and among
the decimals of that length with the one nearest to it. The decimals that read back are those in
the interval halfway to the neighbouring numbers, its ends included when the significand is even.
-/

namespace AccessMatrix

/-- A positive decimal: its digits read as an integer, and where the point stands after the first
of them. -/
structure ShortDecimal where
  digits : Nat
  places : Nat
  point : Int
  deriving DecidableEq, Repr

namespace Binary64

/-- The number of decimal digits of a natural number. -/
def digitCount (n : Nat) : Nat := (Nat.toDigits 10 n).length

/-- The power of ten just above a positive quotient: `10 ^ (k - 1) ≤ num / den < 10 ^ k`. -/
def decimalSize (num den : Nat) : Int :=
  if den ≤ num then digitCount (num / den)
  else 1 - (digitCount ((den + num - 1) / num - 1) : Int)

/-- Whether `digits * 10 ^ e` reads back to the number. The interval is compared in quarters of the
spacing above the number; below a power of two the spacing is half as wide. -/
def readsBack (x : Binary64) (digits : Nat) (e : Int) : Bool :=
  let quarter := x.exponent - 2
  let below := if x.fraction = 0 && 1 < x.biased then 1 else 2
  let scale := Nat.pow 10 (-e).toNat * Nat.pow 2 quarter.toNat
  let candidate := digits * Nat.pow 10 e.toNat * Nat.pow 2 (-quarter).toNat
  let low := (4 * x.significand - below) * scale
  let high := (4 * x.significand + 2) * scale
  if x.significand % 2 = 0 then low ≤ candidate && candidate ≤ high
  else low < candidate && candidate < high

/-- The natural number nearest to a quotient, the even one on a tie. -/
def nearest (num den : Nat) : Nat :=
  let lower := num / den
  let rest := num % den
  if den < 2 * rest || (den = 2 * rest && lower % 2 = 1) then lower + 1 else lower

/-- The decimal of a given length that reads back and is nearest, the even one on a tie. -/
def decimalOfLength (x : Binary64) (size : Int) (length : Nat) : Option ShortDecimal :=
  let e := size - length
  let num := x.magnitude.1 * Nat.pow 10 (-e).toNat
  let den := x.magnitude.2 * Nat.pow 10 e.toNat
  let lower := num / den
  let near := nearest num den
  let far := if near = lower then lower + 1 else lower
  if x.readsBack near e then some ⟨near, length, size - 1⟩
  else if x.readsBack far e then some ⟨far, length, size - 1⟩
  else none

/-- The shortest decimal of a finite positive magnitude; seventeen digits always suffice. -/
def shortest (x : Binary64) : ShortDecimal :=
  let size := decimalSize x.magnitude.1 x.magnitude.2
  (((List.range 17).map (· + 1)).findSome? (x.decimalOfLength size)).getD ⟨0, 1, 0⟩

end Binary64

/-- How a decimal is laid out: from which power of ten downwards and from which upwards an exponent
is written, and how many digits that exponent has at least. -/
structure DecimalLayout where
  positionalFrom : Int
  exponentFrom : Int
  exponentWidth : Nat

namespace ShortDecimal

/-- The digits without the zeros that end them. -/
def significant (d : ShortDecimal) : List Char :=
  let digits := (Nat.toDigits 10 d.digits).reverse.dropWhile (· = '0')
  if digits.isEmpty then ['0'] else digits.reverse

/-- The power of ten of the first digit; rounding up to one more digit raises it. -/
def leading (d : ShortDecimal) : Int :=
  d.point + (Binary64.digitCount d.digits : Int) - d.places

/-- Write a decimal: with the point among the digits, or after the first digit and with an exponent. -/
def layOut (layout : DecimalLayout) (d : ShortDecimal) : List Char :=
  let digits := d.significant
  let top := d.leading
  if layout.positionalFrom ≤ top && top < layout.exponentFrom then
    if top < 0 then '0' :: '.' :: List.replicate (-top - 1).toNat '0' ++ digits
    else
      let whole := digits.take (top.toNat + 1)
      let rest := digits.drop (top.toNat + 1)
      whole ++ List.replicate (top.toNat + 1 - whole.length) '0' ++ '.' ::
        (if rest.isEmpty then ['0'] else rest)
  else
    let power := Nat.toDigits 10 top.natAbs
    digits.take 1 ++ (if digits.length = 1 then [] else '.' :: digits.drop 1) ++
      'e' :: (if top < 0 then '-' else '+') ::
      List.replicate (layout.exponentWidth - power.length) '0' ++ power

end ShortDecimal

end AccessMatrix
