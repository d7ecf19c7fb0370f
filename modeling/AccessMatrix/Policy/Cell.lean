import AccessMatrix.Membership

/-!
# Cells of the access matrix

A cell says, for a role of a context, a subject, and the role that the actor holds on the subject or
none, which actions are allowed.
-/

namespace AccessMatrix.Policy

open Validation (Checked Field faults)

/-- Actions in the order of their first mention, each allowed or not. -/
abbrev Actions := Table String Bool

/-- One cell of the access matrix. -/
structure Cell where
  context : String
  role : String
  subject : String
  subjectRole : Option String := none
  actions : Actions := []
  deriving DecidableEq, Repr

namespace Cell

/-- The name of this record in reports. -/
def recordName : String := "AccessPolicy"

/-- Read a cell from the entries of a mapping; other entries are passed over. -/
def ofEntries (given : List (Value × Value)) : Checked Cell :=
  let context := (Field.plain "context_name").required given Validation.text
  let role := (Field.plain "context_role_name").required given Validation.text
  let subject := (Field.plain "subject_name").required given Validation.text
  let subjectRole :=
    (Field.plain "subject_role_name").optional given none Validation.optionalText
  let actions :=
    (Field.plain "action_policies").optional given [] (Validation.mapping Validation.switch)
  match context, role, subject, subjectRole, actions with
  | .ok context, .ok role, .ok subject, .ok subjectRole, .ok actions =>
    .ok ⟨context, role, subject, subjectRole, actions⟩
  | context, role, subject, subjectRole, actions =>
    .error (faults context ++ faults role ++ faults subject ++ faults subjectRole ++
      faults actions)

/-- Read a cell from a value. -/
def ofValue (value : Value) : Checked Cell := Validation.record recordName ofEntries value

/-- The actions of a cell as a value. -/
def actionsValue (actions : Actions) : Value :=
  .ofFields (actions.map fun entry => (entry.1, .bool entry.2))

/-- A cell as a value. -/
def toValue (cell : Cell) : Value :=
  .ofFields
    [("context_name", .text cell.context), ("context_role_name", .text cell.role),
      ("subject_name", .text cell.subject), ("subject_role_name", .ofOption cell.subjectRole),
      ("action_policies", actionsValue cell.actions)]

end Cell

end AccessMatrix.Policy
