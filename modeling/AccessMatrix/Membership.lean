import AccessMatrix.Table
import AccessMatrix.Validation

/-!
# Memberships and subjects

A membership says that an actor holds a role in one instance of a context. A subject is the
instance that a permission is checked against. Both carry the instance keys of ancestor contexts.
-/

namespace AccessMatrix

open Validation (Checked Field faults)

/-- An actor holds a role in the context instance with the given key. -/
structure Membership where
  contextName : String
  contextKey : String
  roleName : Option String := none
  ancestors : Table String (Option String) := []
  deriving DecidableEq, Repr

namespace Membership

/-- The name of this record in reports. -/
def recordName : String := "Membership"

/-- The context field. -/
def contextField : Field := ⟨"context_name", "contextName"⟩

/-- The instance key field. -/
def keyField : Field := ⟨"context_key", "contextKey"⟩

/-- The role field. -/
def roleField : Field := ⟨"role_name", "roleName"⟩

/-- The field of ancestor keys. -/
def ancestorsField : Field := .plain "ancestors"

/-- Read a membership from the entries of a mapping; other entries are passed over. -/
def ofEntries (given : List (Value × Value)) : Checked Membership :=
  let context := contextField.required given Validation.text
  let key := keyField.required given Validation.text
  let role := roleField.optional given none Validation.optionalText
  let ancestors := ancestorsField.optional given [] (Validation.mapping Validation.optionalText)
  match context, key, role, ancestors with
  | .ok context, .ok key, .ok role, .ok ancestors => .ok ⟨context, key, role, ancestors⟩
  | context, key, role, ancestors =>
    .error (faults context ++ faults key ++ faults role ++ faults ancestors)

/-- Read a membership from a value. -/
def ofValue (value : Value) : Checked Membership := Validation.record recordName ofEntries value

/-- Whether the membership is on the instance of a context with a key. -/
def isOn (m : Membership) (context key : String) : Bool :=
  m.contextName = context && m.contextKey = key

/-- The last membership on the instance of a context with a key. -/
def lastOn (memberships : List Membership) (context key : String) : Option Membership :=
  (memberships.filter fun m => m.isOn context key).getLast?

end Membership

/-- The instance that a permission is checked against. -/
structure Subject where
  name : String
  key : String
  ancestors : Table String (Option String) := []
  deriving DecidableEq, Repr

namespace Subject

/-- The name of this record in reports. -/
def recordName : String := "Subject"

/-- Read a subject from the entries of a mapping; other entries are passed over. -/
def ofEntries (given : List (Value × Value)) : Checked Subject :=
  let name := (Field.plain "name").required given Validation.text
  let key := (Field.plain "key").required given Validation.text
  let ancestors :=
    (Field.plain "ancestors").optional given [] (Validation.mapping Validation.optionalText)
  match name, key, ancestors with
  | .ok name, .ok key, .ok ancestors => .ok ⟨name, key, ancestors⟩
  | name, key, ancestors => .error (faults name ++ faults key ++ faults ancestors)

/-- Read a subject from a value. -/
def ofValue (value : Value) : Checked Subject := Validation.record recordName ofEntries value

end Subject

/-- A text or nothing as a value. -/
def Value.ofOption : Option String → Value
  | none => .null
  | some s => .text s

/-- Ancestor keys as a value. -/
def Value.ofAncestors (ancestors : Table String (Option String)) : Value :=
  .ofFields (ancestors.map fun entry => (entry.1, .ofOption entry.2))

/-- Which spelling of its fields a record is written with. -/
inductive Spelling where
  | names | preferred
  deriving DecidableEq, Repr

/-- The name of a field in a spelling. -/
def Validation.Field.spelled (field : Field) : Spelling → String
  | .names => field.name
  | .preferred => field.preferred

/-- A membership as a value. -/
def Membership.toValue (spelling : Spelling) (m : Membership) : Value :=
  .ofFields
    [(contextField.spelled spelling, .text m.contextName),
      (keyField.spelled spelling, .text m.contextKey),
      (roleField.spelled spelling, .ofOption m.roleName),
      (ancestorsField.spelled spelling, .ofAncestors m.ancestors)]

/-- A subject as a value. -/
def Subject.toValue (s : Subject) : Value :=
  .ofFields [("name", .text s.name), ("key", .text s.key), ("ancestors", .ofAncestors s.ancestors)]

end AccessMatrix
