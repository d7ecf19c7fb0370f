import AccessMatrix.Value.Display

/-!
# Record validation

Records arrive as mappings of the caller's making. Every field is checked, and all faults are
reported together: those of the declared fields in their order, then those of fields that are not
declared.
-/

namespace AccessMatrix.Validation

/-- Why a part of a record is refused. -/
inductive Cause where
  | missing
  | notText
  | notMapping
  | notSwitch
  | unreadableSwitch
  | undeclared
  | keyNotText
  | notRecord (record : String)
  | frozen
  | rejected (reason : String)
  deriving DecidableEq, Repr

namespace Cause

/-- The code of a cause. -/
def code : Cause → String
  | missing => "missing"
  | notText => "string_type"
  | notMapping => "dict_type"
  | notSwitch => "bool_type"
  | unreadableSwitch => "bool_parsing"
  | undeclared => "extra_forbidden"
  | keyNotText => "invalid_key"
  | notRecord _ => "model_type"
  | frozen => "frozen_instance"
  | rejected _ => "value_error"

/-- The message of a cause. -/
def message : Cause → String
  | missing => "Field required"
  | notText => "Input should be a valid string"
  | notMapping => "Input should be a valid dictionary"
  | notSwitch => "Input should be a valid boolean"
  | unreadableSwitch => "Input should be a valid boolean, unable to interpret input"
  | undeclared => "Extra inputs are not permitted"
  | keyNotText => "Keys should be strings"
  | notRecord record => s!"Input should be a valid dictionary or instance of {record}"
  | frozen => "Instance is frozen"
  | rejected reason => s!"Value error, {reason}"

end Cause

/-- A refused part of a record: the way to it from the record's top, and the cause. -/
structure Fault where
  place : List Value
  cause : Cause
  deriving Repr

/-- The result of a check: a value, or every fault found. -/
abbrev Checked (α : Type) := Except (List Fault) α

/-- The faults of a check. -/
def faults {α : Type} : Checked α → List Fault
  | .ok _ => []
  | .error found => found

/-- Move the faults of a part under the place where the part stands. -/
def under {α : Type} (place : Value) : Checked α → Checked α
  | .ok value => .ok value
  | .error found => .error (found.map fun fault => { fault with place := place :: fault.place })

/-- A fault at the place that is being checked. -/
def refuse {α : Type} (cause : Cause) : Checked α := .error [⟨[], cause⟩]

/-- How a key is named as a place: a text by itself, a number of machine size as a number, and any
other key by its literal. -/
def placeOfKey (key : Value) : Value :=
  match key.asText? with
  | some s => .text s
  | none =>
    let number :=
      match key with
      | .bool _ | .int _ => key.asInt?
      | _ => none
    match number with
    | some n => if -Int.pow 2 63 ≤ n ∧ n < Int.pow 2 63 then .int n else .text key.literal
    | none => .text key.literal

/-- A text. -/
def text (value : Value) : Checked String :=
  match value.asText? with
  | some s => .ok s
  | none => refuse .notText

/-- A text or nothing. -/
def optionalText : Value → Checked (Option String)
  | .null => .ok none
  | value => (text value).map some

/-- The words that switch something off. -/
def offWords : List String := ["0", "off", "f", "false", "n", "no"]

/-- The words that switch something on. -/
def onWords : List String := ["1", "on", "t", "true", "y", "yes"]

/-- Whether a text is one of the words in letters of either case. -/
def isWordOf (words : List String) (s : String) : Bool :=
  words.any fun word => word.toList = s.toList.map Char.toLower

/-- A switch given as a number: one or zero, and no other number is readable. -/
def switchOfInt (n : Int) : Checked Bool :=
  if n = 0 then .ok false else if n = 1 then .ok true else refuse .unreadableSwitch

/-- A switch: a truth value, one or zero, or a word for either state. -/
def switch : Value → Checked Bool
  | .bool b => .ok b
  | .int n => if -Int.pow 2 63 ≤ n ∧ n < Int.pow 2 63 then switchOfInt n else refuse .notSwitch
  | .float x =>
    match x.toInt? with
    | some n => if -Int.pow 2 63 < n ∧ n < Int.pow 2 63 then switchOfInt n else refuse .notSwitch
    | none => refuse .notSwitch
  | value =>
    match value.asText? with
    | some s =>
      if isWordOf offWords s then .ok false
      else if isWordOf onWords s then .ok true
      else refuse .unreadableSwitch
    | none => refuse .notSwitch

/-- Check the entries of a mapping from texts; a key is reported before its entry. -/
def entries {α : Type} (check : Value → Checked α) :
    List (Value × Value) → Checked (List (String × α))
  | [] => .ok []
  | (key, value) :: rest =>
    let place := placeOfKey key
    let name := under place (under (.text "[key]") (text key))
    let entry := under place (check value)
    match name, entry, entries check rest with
    | .ok name, .ok entry, .ok rest => .ok ((name, entry) :: rest)
    | name, entry, rest => .error (faults name ++ faults entry ++ faults rest)

/-- A mapping from texts to checked entries. -/
def mapping {α : Type} (check : Value → Checked α) : Value → Checked (List (String × α))
  | .mapping given => entries check given
  | _ => refuse .notMapping

/-- A declared field: its name, and the other spelling that is accepted and preferred. -/
structure Field where
  name : String
  preferred : String

namespace Field

/-- A field with one spelling. -/
def plain (name : String) : Field := ⟨name, name⟩

/-- The spelling under which a record gives the field, and what it gives. -/
def find? (field : Field) (given : List (Value × Value)) : Option (String × Value) :=
  match Value.field? given field.preferred with
  | some value => some (field.preferred, value)
  | none => (Value.field? given field.name).map fun value => (field.name, value)

/-- Check a field that has to be given. -/
def required {α : Type} (field : Field) (given : List (Value × Value))
    (check : Value → Checked α) : Checked α :=
  match field.find? given with
  | some (spelling, value) => under (.text spelling) (check value)
  | none => under (.text field.preferred) (refuse .missing)

/-- Check a field that has a default. -/
def optional {α : Type} (field : Field) (given : List (Value × Value)) (default : α)
    (check : Value → Checked α) : Checked α :=
  match field.find? given with
  | some (spelling, value) => under (.text spelling) (check value)
  | none => .ok default

end Field

/-- The fields of a record that are not declared, each with its fault. -/
def undeclared (names : List String) (given : List (Value × Value)) : List Fault :=
  given.filterMap fun (key, _) =>
    match key.asText? with
    | some s => if names.contains s then none else some ⟨[.text s], .undeclared⟩
    | none => some ⟨[placeOfKey key], .keyNotText⟩

/-- Check a record, which has to be a mapping. -/
def record {α : Type} (name : String) (check : List (Value × Value) → Checked α) :
    Value → Checked α
  | .mapping given => check given
  | _ => refuse (.notRecord name)

/-- The heading over the faults of a record. -/
def heading (record : String) (found : List Fault) : String :=
  let noun := if found.length = 1 then "error" else "errors"
  s!"{found.length} validation {noun} for {record}"

end AccessMatrix.Validation
