import AccessMatrix.Error
import AccessMatrix.Policy.Cell
import AccessMatrix.Value.Item

/-!
# Action maps

Actions are declared as a mapping from names to switches. A switch is a truth value or an integer,
and every integer but zero is on.
-/

namespace AccessMatrix.Policy

/-- Declared actions by their names as they were given, each allowed or not. -/
abbrev Declared := List (Name × Bool)

/-- The actions of a declaration by text. -/
def Declared.actions (declared : Declared) : Actions :=
  declared.map fun entry => (entry.1.text, entry.2)

/-- Whether a declared switch is on; other kinds of values are no switches. -/
def switch? : Value → Option Bool
  | .bool b => some b
  | .int n => some (n != 0)
  | _ => none

/-- Check the entries of an action map in their order. -/
def checkEntries : List (Value × Value) → Except PolicyError Declared
  | [] => .ok []
  | (action, value) :: rest =>
    match action.asName? with
    | none => .error (.unnamedAction action)
    | some name =>
      match switch? value with
      | none => .error (.actionNotSwitch name value.typeName)
      | some allowed => (checkEntries rest).map ((name, allowed) :: ·)

/-- Check an action map. -/
def checkActions : Value → Except PolicyError Declared
  | .mapping entries => checkEntries entries
  | value => .error (.actionsNotMapping value.typeName)

/-- One item of a sequence of entries, which has to be a pair. -/
def entryOfItem (position : Nat) (item : Value) : Except Misuse (Value × Value) :=
  match item.items? with
  | none => .error (.entryNotPair position)
  | some [key, value] => key.checkKey.map fun _ => (key, value)
  | some items => .error (.entryLength position items.length)

/-- The items of a sequence of entries, counted from a position. -/
def entriesOfItems : Nat → List Value → Except Misuse (List (Value × Value))
  | _, [] => .ok []
  | position, item :: rest => do
    let entry ← entryOfItem position item
    return entry :: (← entriesOfItems (position + 1) rest)

/-- The entries that a setter is given by position: none if the value is absent or empty, those of
a mapping, or a sequence of pairs. -/
def givenEntries (value : Value) : Except Misuse (List (Value × Value)) :=
  if !value.isTruthy then .ok []
  else
    match value with
    | .mapping entries => .ok entries
    | value => do return Value.ofPairs (← entriesOfItems 0 (← value.iterate))

/-- The entries that a setter is given by position and by name; those by name are stored last. -/
def mergedEntries (given : Value) (named : List (Name × Value)) :
    Except Misuse (List (Value × Value)) :=
  (givenEntries given).map fun entries =>
    named.foldl (fun entries entry => Value.putEntry entries entry.1.toValue entry.2) entries

end AccessMatrix.Policy
