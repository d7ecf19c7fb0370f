import AccessMatrix.Log.Level
import AccessMatrix.Number.Binary64

/-!
# Values

What a caller may hand over where a name, a record or a switch is expected. Sequences and tuples
are told apart, and a mapping keeps the order in which its keys were first given. A text may be of a
class of its own, with a form of its own for messages and keys; log levels are such texts.
-/

namespace AccessMatrix

/-- A text of a class of its own. It equals its text and is shown in two forms of its own, one for
messages and keys and one that tells it apart. A member of an enumeration has a name there. -/
structure StyledText where
  kind : String
  text : String
  shown : String
  literal : String
  member? : Option String := none
  deriving DecidableEq, Repr, Inhabited

/-- A value of the caller's making. These constructors are the values that are spoken of here: data
without behaviour of its own, and texts of every class. -/
inductive Value where
  | null
  | bool (b : Bool)
  | int (n : Int)
  | float (x : Binary64)
  | text (s : String)
  | level (l : Log.Level)
  | styled (s : StyledText)
  | list (items : List Value)
  | tuple (items : List Value)
  | mapping (entries : List (Value × Value))
  deriving Repr, Inhabited

namespace Value

/-- The name of the kind of a value, as messages give it. -/
def typeName : Value → String
  | null => "NoneType"
  | bool _ => "bool"
  | int _ => "int"
  | float _ => "float"
  | text _ => "str"
  | level _ => "LogLevel"
  | styled s => s.kind
  | list _ => "list"
  | tuple _ => "tuple"
  | mapping _ => "dict"

/-- Whether a value counts as given: nothing, zero and whatever is empty do not. -/
def isTruthy : Value → Bool
  | null => false
  | bool b => b
  | int n => n != 0
  | float x => !x.isZero
  | text s => s != ""
  | level _ => true
  | styled s => s.text != ""
  | list items => !items.isEmpty
  | tuple items => !items.isEmpty
  | mapping entries => !entries.isEmpty

/-- The text that a value is; a log level is its name. -/
def asText? : Value → Option String
  | text s => some s
  | level l => some l.name
  | styled s => some s.text
  | _ => none

/-- The name that a value has as a member of an enumeration; that of a log level is its text. -/
def memberName? : Value → Option String
  | level l => some l.name
  | styled s => s.member?
  | _ => none

/-- The number that a value is equal to, a truth value being one or zero. -/
def asInt? : Value → Option Int
  | bool b => some (if b then 1 else 0)
  | int n => some n
  | float x => x.toInt?
  | _ => none

mutual

/-- The kind of the part that keeps a value from being a key, if one does. -/
def unkeyable? : Value → Option String
  | list _ => some "list"
  | mapping _ => some "dict"
  | tuple items => unkeyableAmong? items
  | _ => none

/-- The first such part among several values. -/
def unkeyableAmong? : List Value → Option String
  | [] => none
  | item :: rest => (unkeyable? item).or (unkeyableAmong? rest)

end

mutual

/-- Whether two keys are the same: numbers by value, texts by their characters, tuples item by
item. -/
def sameKey : Value → Value → Bool
  | null, null => true
  | tuple xs, tuple ys => sameKeys xs ys
  | float x, float y => x.same y
  | x, y =>
    match x.asText?, y.asText? with
    | some s, some t => s == t
    | none, none =>
      match x.asInt?, y.asInt? with
      | some m, some n => m == n
      | _, _ => false
    | _, _ => false

/-- Whether two lists of keys are the same item by item. -/
def sameKeys : List Value → List Value → Bool
  | [], [] => true
  | x :: xs, y :: ys => sameKey x y && sameKeys xs ys
  | _, _ => false

end

/-- What is stored under a key. -/
def lookup {α : Type} (entries : List (Value × α)) (key : Value) : Option α :=
  (entries.find? fun entry => entry.1.sameKey key).map (·.2)

/-- The value under a text key of a mapping. -/
def field? (entries : List (Value × Value)) (key : String) : Option Value :=
  lookup entries (text key)

/-- Store an entry, in the key's old place if it has one. -/
def putEntry {α : Type} : List (Value × α) → Value → α → List (Value × α)
  | [], key, value => [(key, value)]
  | entry :: rest, key, value =>
    if entry.1.sameKey key then (entry.1, value) :: rest else entry :: putEntry rest key value

/-- The mapping made of entries given one after the other. -/
def ofPairs (pairs : List (Value × Value)) : List (Value × Value) :=
  pairs.foldl (fun entries entry => putEntry entries entry.1 entry.2) []

/-- A mapping from texts. -/
def ofFields (fields : List (String × Value)) : Value :=
  mapping (fields.map fun field => (text field.1, field.2))

/-- A list of texts. -/
def ofTexts (texts : List String) : Value := list (texts.map text)

/-- What a value yields when it is gone through item by item: a text its characters, a mapping its
keys. -/
def items? : Value → Option (List Value)
  | text s => some (s.toList.map fun c => text c.toString)
  | level l => some (l.name.toList.map fun c => text c.toString)
  | styled s => some (s.text.toList.map fun c => text c.toString)
  | list items => some items
  | tuple items => some items
  | mapping entries => some (entries.map (·.1))
  | _ => none

end Value

end AccessMatrix
