import AccessMatrix.Number.Rounded
import AccessMatrix.Value.Item

/-!
# Arguments in their places

An argument is written as a text, as an integer in base ten, eight or sixteen, as a number with a point
or an exponent, or as one character. A sign, the marker of a base, a width and a precision go with it.
-/

namespace AccessMatrix.Log

/-- How an argument is written: whether to the left of its place, with which sign where it is not
negative, with the marker of its base or a point in any case, whether a number is filled up by zeros,
and in which width and precision. -/
structure PlaceLayout where
  toLeft : Bool := false
  plus : List Char := []
  marked : Bool := false
  zeros : Bool := false
  width : Nat := 0
  precision? : Option Nat := none
  deriving DecidableEq, Repr

/-- The layout that flags and counts ask for. -/
def PlaceLayout.ofFlags (flags : List Char) (width : Nat) (precision? : Option Nat) :
    PlaceLayout where
  toLeft := flags.contains '-'
  plus := if flags.contains '+' then ['+'] else if flags.contains ' ' then [' '] else []
  marked := flags.contains '#'
  zeros := flags.contains '0'
  width := width
  precision? := precision?

/-- An argument as it is written, not yet put in its width: a number may have a sign and the marker of
its base before its digits. -/
structure WrittenArgument where
  isNumber : Bool := false
  lead : List Char := []
  body : List Char
  deriving DecidableEq, Repr

namespace PlaceLayout

/-- The most characters that a text can have. -/
def longestText : Nat := Nat.pow 2 30

/-- Put an argument in its width. -/
def place (layout : PlaceLayout) (written : WrittenArgument) : List Char :=
  let gap := layout.width - (written.lead.length + written.body.length)
  if layout.toLeft then written.lead ++ written.body ++ List.replicate gap ' '
  else if layout.zeros && written.isNumber then
    written.lead ++ List.replicate gap '0' ++ written.body
  else List.replicate gap ' ' ++ written.lead ++ written.body

/-- An argument written as a text, of which the precision keeps the first characters. -/
def text (layout : PlaceLayout) (s : String) : WrittenArgument where
  body :=
    match layout.precision? with
    | some count => s.toList.take count
    | none => s.toList

/-- A sign of a number. -/
def sign (layout : PlaceLayout) (isNegative : Bool) : List Char :=
  if isNegative then ['-'] else layout.plus

/-- An integer in a base, with zeros before its digits up to the precision. -/
def integer (layout : PlaceLayout) (base : Nat) (marker : List Char) (n : Int) : WrittenArgument where
  isNumber := true
  lead := layout.sign (n < 0) ++ if layout.marked then marker else []
  body :=
    let digits := Nat.toDigits base n.natAbs
    List.replicate (layout.precision?.getD 0 - digits.length) '0' ++ digits

/-- More digits than any number has before the zeros that end it. -/
def mostDigits : Nat := 1100

/-- A number that has a part after the point, with six digits for it unless the precision says
another count. -/
def real (layout : PlaceLayout) (conversion : Char) (x : Binary64) : WrittenArgument where
  isNumber := true
  lead := layout.sign (x.isNegative && !x.isUndefined)
  body :=
    let count := layout.precision?.getD 6
    let style : FractionStyle := if layout.marked then .pointed else .plain
    if x.isUndefined then "nan".toList
    else if !x.isFinite then "inf".toList
    else if conversion = 'f' then style.positional count (x.inPlaces count)
    else if conversion = 'e' then style.scientific (x.withDigits (count + 1))
    else if layout.marked then x.general .pointed (max count 1)
    else x.general .trimmed (max (min count mostDigits) 1)

end PlaceLayout

namespace WrittenArgument

/-- An argument in capital letters. -/
def capitals (written : WrittenArgument) : WrittenArgument :=
  { written with lead := written.lead.map Char.toUpper, body := written.body.map Char.toUpper }

end WrittenArgument

namespace PlaceLayout

/-- The whole number that a value gives at a place for one. -/
def wholeNumber (conversion : Char) : Value → Except Misuse Int
  | .float x =>
    match x.truncate? with
    | some n => .ok n
    | none => .error (.number (if x.isUndefined then .undefined else .infinite))
  | value =>
    match value.asInt? with
    | some n => .ok n
    | none => .error (.template (.notNumber conversion value.typeName))

/-- The number that a value gives at a place for one with a part after the point. -/
def realNumber : Value → Except Misuse Binary64
  | .float x => .ok x
  | value =>
    match value.asInt? with
    | none => .error (.template (.notReal value.typeName))
    | some n =>
      match Binary64.ofInt? n with
      | some x => .ok x
      | none => .error (.template .realTooLarge)

/-- The character that a value gives at a place for one: a text of one character, or a code point. -/
def character (value : Value) : Except Misuse Char :=
  match value.asText?, value.position? with
  | some s, _ =>
    match s.toList with
    | [c] => .ok c
    | _ => .error (.template .notCharacter)
  | none, some n =>
    if 0 ≤ n ∧ n < 0x110000 then .ok (Char.ofNat n.toNat) else .error (.template .noSuchCharacter)
  | none, none => .error (.template .notCharacter)

/-- Refuse a precision of an integer that is too large, and then one that no text holds. -/
def checkDigits (layout : PlaceLayout) : Except Misuse Unit :=
  let count := layout.precision?.getD 0
  if Nat.pow 2 31 - 4 < count then .error (.template .longPrecision)
  else if longestText < count then .error (.template .endlessText)
  else .ok ()

/-- Write a value by the letter of a conversion, which stands at a position of the template. -/
def write (layout : PlaceLayout) (conversion : Char) (position : Nat) (value : Value) :
    Except Misuse WrittenArgument := do
  let lower := conversion.toLower
  let whole (base : Nat) (marker : List Char) (n : Int) : Except Misuse WrittenArgument := do
    layout.checkDigits
    return layout.integer base marker n
  let exact (base : Nat) (marker : List Char) : Except Misuse WrittenArgument :=
    match value.position? with
    | some n => whole base marker n
    | none => .error (.template (.notInteger conversion value.typeName))
  let inCase (written : WrittenArgument) : WrittenArgument :=
    if conversion.isUpper then written.capitals else written
  if conversion = 's' then return layout.text value.display
  else if conversion = 'r' then return layout.text value.literal
  else if conversion = 'a' then return layout.text (Text.narrow value.literal)
  else if ['d', 'i', 'u'].contains conversion then whole 10 [] (← wholeNumber conversion value)
  else if conversion = 'o' then exact 8 ['0', 'o']
  else if lower = 'x' then inCase <$> exact 16 ['0', 'x']
  else if ['e', 'f', 'g'].contains lower then return inCase (layout.real lower (← realNumber value))
  else if conversion = 'c' then return { body := [← character value] }
  else throw (.template (.unknownConversion conversion position))

end PlaceLayout

end AccessMatrix.Log
