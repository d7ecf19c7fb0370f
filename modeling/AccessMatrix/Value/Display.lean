import AccessMatrix.Number.Shortest
import AccessMatrix.Text.Quoted
import AccessMatrix.Value.Basic

/-!
# Values as text

A value is shown in two ways. Its literal tells every kind apart: texts are quoted, a tuple of one
item keeps its comma. Its display is the literal, except that a text alone stands for itself. A text
of a class of its own has both forms from there.

The runtime does not write integers of any length: it has a limit of digits, and a value that holds a
longer integer has no text.
-/

namespace AccessMatrix

/-- Numbers are written with the point among the digits from a ten-thousandth up to sixteen digits
before the point, and else with an exponent of two digits or more. -/
def floatLayout : DecimalLayout := ⟨-4, 16, 2⟩

/-- The text of a floating-point number. -/
def Binary64.display (x : Binary64) : String :=
  if x.isUndefined then "nan"
  else
    let digits :=
      if !x.isFinite then ['i', 'n', 'f']
      else if x.isZero then ['0', '.', '0']
      else x.shortest.layOut floatLayout
    String.ofList (if x.isNegative then '-' :: digits else digits)

namespace Value

/-- Texts side by side with a separator between them. -/
def joined (separator : String) (parts : List String) : String := separator.intercalate parts

mutual

/-- The literal of a value. -/
def literal : Value → String
  | null => "None"
  | bool b => if b then "True" else "False"
  | int n => toString n
  | float x => x.display
  | text s => Text.quote s
  | level l => "<LogLevel." ++ l.name ++ ": " ++ Text.quote l.name ++ ">"
  | styled s => s.literal
  | list items => "[" ++ joined ", " (literals items) ++ "]"
  | tuple [item] => "(" ++ literal item ++ ",)"
  | tuple items => "(" ++ joined ", " (literals items) ++ ")"
  | mapping entries => "\x7b" ++ joined ", " (entryLiterals entries) ++ "\x7d"

/-- The literals of several values. -/
def literals : List Value → List String
  | [] => []
  | item :: rest => literal item :: literals rest

/-- The literals of the entries of a mapping, each with a colon after its key. -/
def entryLiterals : List (Value × Value) → List String
  | [] => []
  | (key, value) :: rest => (literal key ++ ": " ++ literal value) :: entryLiterals rest

end

/-- The display of a value. -/
def display : Value → String
  | text s => s
  | level l => "LogLevel." ++ l.name
  | styled s => s.shown
  | value => value.literal

/-- The most digits of an integer that the runtime writes, unless it is told otherwise. -/
@[irreducible]
def digitLimit : Nat := 4300

mutual

/-- Whether a value has a text: it holds no integer beyond the limit of digits. -/
def hasText : Value → Bool
  | int n => n.natAbs < Nat.pow 10 digitLimit
  | list items => haveTexts items
  | tuple items => haveTexts items
  | mapping entries => entriesHaveTexts entries
  | _ => true

/-- Whether several values have texts. -/
def haveTexts : List Value → Bool
  | [] => true
  | item :: rest => hasText item && haveTexts rest

/-- Whether the keys and the values of a mapping have texts. -/
def entriesHaveTexts : List (Value × Value) → Bool
  | [] => true
  | (key, value) :: rest => hasText key && hasText value && entriesHaveTexts rest

end

/-- The literal of a list of texts. -/
def textsLiteral (texts : List String) : String := literal (ofTexts texts)

end Value

end AccessMatrix
