import AccessMatrix.Misuse

/-!
# Items of values

A value is gone through item by item, or asked for the item under a key. A sequence counts its items
from zero, and from the end below zero; a mapping finds them by keys.
-/

namespace AccessMatrix.Value

/-- The items of a value that is gone through. -/
def iterate (v : Value) : Except Misuse (List Value) :=
  match v.items? with
  | some items => .ok items
  | none => .error (.notIterable v.typeName)

/-- The number of items of a value. -/
def length (v : Value) : Except Misuse Nat :=
  match v.items? with
  | some items => .ok items.length
  | none => .error (.noLength v.typeName)

/-- Refuse a value that cannot be a key. -/
def checkKey (v : Value) : Except Misuse Unit :=
  match v.unkeyable? with
  | some kind => .error (.notKeyable kind)
  | none => .ok ()

/-- Refuse a value that has no text. -/
def checkText (v : Value) : Except Misuse Unit :=
  if v.hasText then .ok () else .error .tooManyDigits

/-- The number of an item, which is an integer or a truth value. -/
def position? : Value → Option Int
  | bool b => some (if b then 1 else 0)
  | int n => some n
  | _ => none

/-- The item of a sequence under a key; the kind of the sequence is for messages. -/
def itemAmong (kind : String) (items : List Value) (key : Value) : Except Misuse Value :=
  match key.position? with
  | none => .error (.indexedBy kind key.typeName)
  | some n =>
    if n < -Int.pow 2 63 ∨ Int.pow 2 63 ≤ n then .error .hugeIndex
    else
      let fromStart := if n < 0 then n + items.length else n
      match if fromStart < 0 then none else items[fromStart.toNat]? with
      | some item => .ok item
      | none => .error (.outOfRange kind)

/-- The item of a value under a key. -/
def item (v key : Value) : Except Misuse Value :=
  match v with
  | mapping entries => do
    key.checkKey
    match lookup entries key with
    | some found => return found
    | none => throw (.noKey key)
  | list items => itemAmong "list" items key
  | tuple items => itemAmong "tuple" items key
  | text _ | level _ | styled _ => itemAmong "string" (v.items?.getD []) key
  | _ => .error (.notIndexable v.typeName)

end AccessMatrix.Value
