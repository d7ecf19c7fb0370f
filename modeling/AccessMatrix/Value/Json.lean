import AccessMatrix.Value.Item

/-!
# Values as JSON text

The JSON text of a value has a comma and a space between items and a colon and a space after keys.
Characters stand for themselves except the double quote, the backslash and the controls below the
space. A key that is not a text is written as one; a tuple cannot be a key. An integer beyond the limit
of digits is not written.
-/

namespace AccessMatrix

namespace Json

/-- One character inside a JSON string. -/
def escape (c : Char) : List Char :=
  if c = Text.doubleQuote || c = Text.backslash then [Text.backslash, c]
  else if c = '\n' then [Text.backslash, 'n']
  else if c = '\r' then [Text.backslash, 'r']
  else if c = '\t' then [Text.backslash, 't']
  else if c.toNat = 0x0c then [Text.backslash, 'f']
  else if c.toNat = 0x08 then [Text.backslash, 'b']
  else if c.toNat < 0x20 then Text.backslash :: 'u' :: Text.hexDigits 4 c.toNat
  else [c]

/-- A JSON string. -/
def string (s : String) : String :=
  String.ofList (Text.doubleQuote :: s.toList.flatMap escape ++ [Text.doubleQuote])

/-- A JSON number; the infinities and the undefined number have words of their own. -/
def number (x : Binary64) : String :=
  if x.isUndefined then "NaN"
  else if !x.isFinite then (if x.isNegative then "-Infinity" else "Infinity")
  else x.display

/-- A JSON integer. -/
def integer (n : Int) : Except Misuse String := do
  (Value.int n).checkText
  return toString n

/-- The text of a key, which is a single value other than a collection. -/
def key : Value → Except Misuse String
  | .text s => .ok s
  | .level l => .ok l.name
  | .styled s => .ok s.text
  | .null => .ok "null"
  | .bool b => .ok (if b then "true" else "false")
  | .int n => integer n
  | .float x => .ok (number x)
  | value => .error (.unwritableKey value.typeName)

mutual

/-- The JSON text of a value, or why the first part that cannot be written is not. -/
def encode : Value → Except Misuse String
  | .null => .ok "null"
  | .bool b => .ok (if b then "true" else "false")
  | .int n => integer n
  | .float x => .ok (number x)
  | .text s => .ok (string s)
  | .level l => .ok (string l.name)
  | .styled s => .ok (string s.text)
  | .list items => do return "[" ++ Value.joined ", " (← encodeAll items) ++ "]"
  | .tuple items => do return "[" ++ Value.joined ", " (← encodeAll items) ++ "]"
  | .mapping entries => do
    return "\x7b" ++ Value.joined ", " (← encodeEntries entries) ++ "\x7d"

/-- The JSON texts of several values. -/
def encodeAll : List Value → Except Misuse (List String)
  | [] => .ok []
  | item :: rest => do return (← encode item) :: (← encodeAll rest)

/-- The JSON texts of the entries of a mapping. -/
def encodeEntries : List (Value × Value) → Except Misuse (List String)
  | [] => .ok []
  | (name, value) :: rest => do
    let name ← key name
    let value ← encode value
    return (string name ++ ": " ++ value) :: (← encodeEntries rest)

end

end Json

end AccessMatrix
