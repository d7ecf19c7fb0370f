import AccessMatrix.Value.Display

/-!
# Names

Entities, roles and actions are named by texts. A log level is the text of its own name, so a level
and that text name the same thing, and so does every other text of a class of its own. They are only
shown differently: a name is shown as it was given.
-/

namespace AccessMatrix

/-- A name as it was given. -/
inductive Name where
  | plain (s : String)
  | level (l : Log.Level)
  | styled (s : StyledText)
  deriving DecidableEq, Repr, Inhabited

namespace Name

/-- The text of a name, which tells what it names. -/
def text : Name → String
  | plain s => s
  | level l => l.name
  | styled s => s.text

/-- A name as a value. -/
def toValue : Name → Value
  | plain s => .text s
  | level l => .level l
  | styled s => .styled s

/-- The name that a value is. -/
def ofValue? : Value → Option Name
  | .text s => some (plain s)
  | .level l => some (level l)
  | .styled s => some (styled s)
  | _ => none

/-- The name among several that a value names. -/
def among? (names : List Name) (v : Value) : Option Name :=
  v.asText?.bind fun s => names.find? fun n => n.text = s

/-- A name as it is shown. -/
def display (n : Name) : String := n.toValue.display

/-- The literal of a name. -/
def literal (n : Name) : String := n.toValue.literal

/-- The literal of a list of names. -/
def listLiteral (names : List Name) : String := Value.literal (.list (names.map toValue))

theorem ofValue?_toValue (n : Name) : ofValue? n.toValue = some n := by cases n <;> rfl

theorem toValue_of_ofValue? {v : Value} {n : Name} (h : ofValue? v = some n) : n.toValue = v := by
  cases v <;> simp_all [ofValue?] <;> subst h <;> rfl

/-- The text of a name is the text that the value is. -/
theorem map_text_ofValue? (v : Value) : (ofValue? v).map text = v.asText? := by cases v <;> rfl

theorem display_plain (s : String) : (plain s).display = s := rfl

end Name

/-- A name that is not empty. -/
def Value.asName? (v : Value) : Option Name := (Name.ofValue? v).filter (·.text ≠ "")

end AccessMatrix
