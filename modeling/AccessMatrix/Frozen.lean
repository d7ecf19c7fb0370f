import AccessMatrix.Error

/-!
# Records at rest

A record does not change once it was read. What its members hold can still be set where the name of
a member begins with an underscore, since no field has such a name. One of these members holds all the
others. Of what a record holds, its fields are what is written.
-/

namespace AccessMatrix

/-- A record that was read: its name, the names of its fields, and what it holds under the names of
its members. -/
structure FrozenRecord where
  name : String
  fields : List String
  held : List (Value × Value)
  deriving Repr

namespace FrozenRecord

/-- The member that holds all the others. -/
def holdingMember : String := "__dict__"

/-- The members that are worked out when they are asked for. -/
def derivedMembers : List String := ["__fields__", "__fields_set__"]

/-- The member that is called to write a record. -/
def writingMember : String := "model_dump"

/-- The member that knows how to write a record. -/
def writerMember : String := "__pydantic_serializer__"

/-- What a writer is asked for. -/
def writerUse : String := "to_python"

/-- A record with the entries of a mapping as its fields. -/
def ofValue (name : String) (value : Value) : FrozenRecord :=
  match value with
  | .mapping entries =>
    { name, fields := entries.filterMap fun entry => entry.1.asText?, held := entries }
  | _ => { name, fields := [], held := [] }

/-- Set a member. -/
def assign (r : FrozenRecord) (member value : Value) : Except Error FrozenRecord :=
  match member.asText? with
  | none => .error (.misuse (.memberNotNamed member.typeName))
  | some label =>
    if !label.startsWith "_" then .error (.invalid r.name [⟨[.text label], .frozen⟩])
    else if label = "__class__" then .error (.misuse (.notClass value.typeName))
    else if label = "__weakref__" then .error (.misuse (.unwritableMember label r.name))
    else if label ∈ derivedMembers then .error (.misuse (.derivedMember label r.name))
    else if label = holdingMember then
      match value with
      | .mapping entries => .ok { r with held := entries }
      | other => .error (.misuse (.notMembers other.typeName))
    else .ok { r with held := Value.putEntry r.held member value }

/-- The entries of what is held that are fields; every name among them has to be a text. -/
def written (fields : List String) : List (Value × Value) → Except Misuse (List (Value × Value))
  | [] => .ok []
  | entry :: rest =>
    match entry.1.asText? with
    | none => .error (.memberNotText entry.1)
    | some label =>
      (written fields rest).map fun others => if label ∈ fields then entry :: others else others

/-- Write a record as the fields that it holds. What it holds under the name of a member that writing
goes through stands in place of that member. -/
def write (r : FrozenRecord) : Except Misuse Value := do
  if let some found := Value.field? r.held writingMember then
    throw (.call (.notCallable found.typeName))
  if let some found := Value.field? r.held writerMember then
    throw (.noMember found.typeName writerUse)
  return .mapping (← written r.fields r.held)

end FrozenRecord

end AccessMatrix
