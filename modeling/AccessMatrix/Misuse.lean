import AccessMatrix.Misuse.Call
import AccessMatrix.Misuse.Template
import AccessMatrix.Value.Display

/-!
# Misuse

What a value or a call does not allow: a value that is used as something that it is not, arguments
that do not fit what is called, a template and its arguments that do not go together, and an instant
that no calendar shows. A misuse is a cause; its kind and its wording are functions of it.
-/

namespace AccessMatrix

/-- What keeps a number from being taken for an instant or a count. -/
inductive NumberFault where
  | infinite
  | undefined
  | undefinedInstant
  | instantTooLarge
  | dateTooLarge
  | yearTooLarge
  deriving Repr

namespace NumberFault

/-- The message of a number that is not taken. -/
def message : NumberFault → String
  | infinite => "cannot convert float infinity to integer"
  | undefined => "cannot convert float NaN to integer"
  | undefinedInstant => "Invalid value NaN (not a number)"
  | instantTooLarge => "timestamp out of range for platform time_t"
  | dateTooLarge => "[Errno 75] Value too large for defined data type"
  | yearTooLarge => "signed integer is greater than maximum"

/-- The name of the kind of such a fault. -/
def kind : NumberFault → String
  | undefined | undefinedInstant => "ValueError"
  | dateTooLarge => "OSError"
  | infinite | instantTooLarge | yearTooLarge => "OverflowError"

end NumberFault

/-- What a value or a call does not allow. -/
inductive Misuse where
  | notIterable (kind : String)
  | notKeyable (kind : String)
  | notIndexable (kind : String)
  | notAssignable (kind : String)
  | indexedBy (kind key : String)
  | outOfRange (kind : String)
  | hugeIndex
  | notSliceable
  | noLength (kind : String)
  | notAddable (kind : String)
  | hugeInteger
  | tooManyDigits
  | endless
  | notOrdered (relation left right : String)
  | notInteger (kind : String)
  | notText (position : Nat) (kind : String)
  | noKey (key : Value)
  | noMember (kind member : String)
  | noRoleMember (context role : String)
  | memberNotNamed (kind : String)
  | notClass (kind : String)
  | notMembers (kind : String)
  | unwritableMember (member kind : String)
  | undeletableMember (member : String)
  | derivedMember (member kind : String)
  | memberNotText (member : Value)
  | entryNotPair (position : Nat)
  | entryLength (position length : Nat)
  | unwritableKey (kind : String)
  | reservedField (key : Value)
  | levelNotInteger
  | unknownLevel (name : Value)
  | levelNotNamed (level : Value)
  | loggerNotText
  | notAbstract
  | call (fault : CallFault)
  | template (fault : TemplateFault)
  | number (fault : NumberFault)
  deriving Repr

namespace Misuse

/-- The name of the kind of a misuse. -/
def kind : Misuse → String
  | noMember _ _ | noRoleMember _ _ | unwritableMember _ _ | derivedMember _ _ => "AttributeError"
  | noKey _ | reservedField _ => "KeyError"
  | outOfRange _ | hugeIndex => "IndexError"
  | entryLength _ _ | unknownLevel _ | tooManyDigits => "ValueError"
  | hugeInteger => "OverflowError"
  | endless => "RecursionError"
  | notAbstract => "NotImplementedError"
  | template fault => fault.kind
  | number fault => fault.kind
  | _ => "TypeError"

/-- The message of a misuse. -/
def message : Misuse → String
  | notIterable kind => s!"'{kind}' object is not iterable"
  | notKeyable kind => s!"unhashable type: '{kind}'"
  | notIndexable kind => s!"'{kind}' object is not subscriptable"
  | notAssignable kind => s!"'{kind}' object does not support item assignment"
  | indexedBy kind key =>
    if kind = "string" then s!"string indices must be integers, not '{key}'"
    else s!"{kind} indices must be integers or slices, not {key}"
  | outOfRange kind => s!"{kind} index out of range"
  | hugeIndex => "cannot fit 'int' into an index-sized integer"
  | notSliceable => "slice indices must be integers or None or have an __index__ method"
  | noLength kind => s!"object of type '{kind}' has no len()"
  | notAddable kind =>
    if kind = "str" then "can only concatenate str (not \"int\") to str"
    else if kind = "list" then "can only concatenate list (not \"int\") to list"
    else s!"unsupported operand type(s) for +: '{kind}' and 'int'"
  | hugeInteger => "Python int too large to convert to C int"
  | tooManyDigits =>
    let limit := Value.digitLimit
    s!"Exceeds the limit ({limit} digits) for integer string conversion; " ++
      "use sys.set_int_max_str_digits() to increase the limit"
  | endless => "maximum recursion depth exceeded while calling a Python object"
  | notOrdered relation left right =>
    s!"'{relation}' not supported between instances of '{left}' and '{right}'"
  | notInteger kind => s!"'{kind}' object cannot be interpreted as an integer"
  | notText position kind => s!"sequence item {position}: expected str instance, {kind} found"
  | noKey key => key.literal
  | noMember kind member => s!"'{kind}' object has no attribute '{member}'"
  | noRoleMember context role => s!"Context '{context}' has no role '{role}'"
  | memberNotNamed kind => s!"attribute name must be string, not '{kind}'"
  | notClass kind => s!"__class__ must be set to a class, not '{kind}' object"
  | notMembers kind => s!"__dict__ must be set to a dictionary, not a '{kind}'"
  | unwritableMember member kind => s!"attribute '{member}' of '{kind}' objects is not writable"
  | undeletableMember member => s!"can't delete {member} attribute"
  | derivedMember member kind => s!"property '{member}' of '{kind}' object has no setter"
  | memberNotText member =>
    let shown := match member with
      | .null => "'None'"
      | other => s!"'{other.typeName}' object"
    shown ++ " is not an instance of 'str'"
  | entryNotPair position =>
    s!"cannot convert dictionary update sequence element #{position} to a sequence"
  | entryLength position length =>
    s!"dictionary update sequence element #{position} has length {length}; 2 is required"
  | unwritableKey kind => s!"keys must be str, int, float, bool or None, not {kind}"
  | reservedField key =>
    let shown := key.literal
    Text.quote s!"Attempt to overwrite {shown} in LogRecord"
  | levelNotInteger => "level must be an integer"
  | unknownLevel name => "Unknown level: " ++ name.literal
  | levelNotNamed level => "Level not an integer or a valid string: " ++ level.literal
  | loggerNotText => "A logger name must be a string"
  | notAbstract => ""
  | call fault => fault.message
  | template fault => fault.message
  | number fault => fault.message

/-- Whether the message of a misuse can be written; of the values that messages show, only the key that
is missing somewhere can be anything. -/
def hasText : Misuse → Bool
  | noKey key => key.hasText
  | _ => true

end Misuse

namespace CallFault

/-- Refuse the first name of an argument that a call does not take or already has. -/
def checkNames (called : String) (taken given : List String) : List String → Except Misuse Unit
  | [] => .ok ()
  | name :: rest =>
    if name ∈ given then .error (.call (repeated called name))
    else if name ∈ taken then checkNames called taken given rest
    else .error (.call (unexpected called name))

end CallFault

end AccessMatrix
