import AccessMatrix.Text.Blank
import AccessMatrix.Value.Json

/-!
# Previews

Values of the caller's making are never logged whole. A preview is one line: the words of the
value's text, one space apart, cut at a limit with an ellipsis in place of what is missing. A value that
has no text has no preview.
-/

namespace AccessMatrix.Log

/-- The character that stands for what was cut off. -/
def ellipsis : Char := '\u2026'

/-- The text that is previewed: nothing for the absent value, JSON for a collection, and the plain
display for a collection that has no JSON text and for everything else. -/
def previewText : Value → String
  | .null => ""
  | .text s => s
  | .level l => l.name
  | .styled s => s.text
  | value@(.list _) | value@(.tuple _) | value@(.mapping _) =>
    match Json.encode value with
    | .ok s => s
    | .error _ => value.display
  | value => value.display

/-- The first characters of a text; a negative count leaves off as many at the end. -/
def takeSigned (s : List Char) (count : Int) : List Char :=
  if 0 ≤ count then s.take count.toNat else s.take (s.length - (-count).toNat)

/-- Cut a text that is longer than the limit, so that with the ellipsis it has the limit's length. -/
def cut (limit : Int) (s : List Char) : List Char :=
  if limit < s.length then takeSigned s (limit - 1) ++ [ellipsis] else s

/-- A preview of a text. -/
def previewOfText (limit : Int) (s : String) : String :=
  String.ofList (cut limit (Text.collapse s).toList)

/-- The limit used where none is given. -/
def defaultLimit : Int := 240

/-- A preview of a value; the absent value has none to cut. -/
def preview (limit : Int) (value : Value) : String :=
  match value with
  | .null => ""
  | value => previewOfText limit (previewText value)

/-- A preview of a value with a limit of the caller's making. A limit that is no number has no order
with a length, and one that is no integer cuts nothing. -/
def previewWithin (limit value : Value) : Except Misuse String := do
  value.checkText
  match value, limit with
  | .null, _ => .ok ""
  | value, .float x =>
    let whole := Text.collapse (previewText value)
    let exceeds :=
      match x.floor? with
      | some n => decide (n < whole.length)
      | none => x.isNegative && !x.isUndefined
    if exceeds then .error .notSliceable else .ok whole
  | value, limit =>
    match limit.asInt? with
    | some n => .ok (preview n value)
    | none => .error (.notOrdered ">" "int" limit.typeName)

end AccessMatrix.Log
