import AccessMatrix.Misuse
import AccessMatrix.Validation
import AccessMatrix.Value.Name

/-!
# Errors

An error is a cause. The wording, the code and the details that reports show are functions of the
cause. Setup failures fall in two families: the structure of a graph that cannot be built as asked,
and policies that cannot be declared or compiled.
-/

namespace AccessMatrix

/-- The families of setup failures. -/
inductive Family where
  | engine | structural | duplicateEntity | duplicateRole | cycle | unknownEntity | configuration
  deriving DecidableEq, Repr

namespace Family

/-- Every family. -/
def all : List Family :=
  [engine, structural, duplicateEntity, duplicateRole, cycle, unknownEntity, configuration]

/-- The name of a family. -/
def name : Family → String
  | engine => "PermissionManagerError"
  | structural => "StructuralError"
  | duplicateEntity => "DuplicateEntityError"
  | duplicateRole => "DuplicateRoleError"
  | cycle => "CycleError"
  | unknownEntity => "UnknownEntityError"
  | configuration => "ConfigurationError"

/-- The family with a name. -/
def ofName? (s : String) : Option Family := all.find? fun family => family.name = s

/-- The stable code of a family. -/
def code : Family → String
  | engine => "INTERNAL_ERROR"
  | structural => "STRUCTURAL_ERROR"
  | duplicateEntity => "DUPLICATE_ENTITY"
  | duplicateRole => "DUPLICATE_ROLE"
  | cycle => "CYCLE_DETECTED"
  | unknownEntity => "UNKNOWN_ENTITY"
  | configuration => "CONFIGURATION_ERROR"

/-- The message where none is given. -/
def defaultMessage : Family → String
  | engine => "An internal error occurred"
  | configuration => "Invalid access policy configuration"
  | _ => "Invalid entity structure"

/-- The families that a family belongs to, itself first. -/
def lineage : Family → List Family
  | engine => [engine]
  | structural => [structural, engine]
  | configuration => [configuration, engine]
  | family => [family, structural, engine]

end Family

/-- A setup failure as it is reported. -/
structure Report where
  family : Family
  message : Value
  code : Value
  details : List (String × Value)
  deriving Repr

/-- Report a failure; a message or code that does not count as given gives way to the family's
own. -/
def Family.report (family : Family) (message code : Value) (details : List (String × Value)) :
    Report where
  family := family
  message := if message.isTruthy then message else .text family.defaultMessage
  code := if code.isTruthy then code else .text family.code
  details := details

/-- Where the families of setup failures are defined, as texts of exceptions name it. -/
def familyModule : String := "permission_manager.exceptions."

/-- How a call that makes a report of a family is named. -/
def Family.maker (family : Family) : String := familyModule ++ family.name ++ "()"

/-- Report a failure from a message, a code, and details by name, among which the message and the
code may also stand, but not a second time. -/
def Family.reportNamed (family : Family) (message? code? : Option Value) (details : Value) :
    Except Misuse Report := do
  let details ←
    match details with
    | .mapping entries => pure (entries.map fun entry => (entry.1.display, entry.2))
    | other => throw (.call (.notMapping family.maker other.typeName))
  if code?.isSome && (details.lookup "code").isSome then
    throw (.call (.repeatedKeyword family.maker "code"))
  let given := "self" :: if message?.isSome then ["message"] else []
  match details.find? fun entry => given.contains entry.1 with
  | some entry => throw (.call (.repeated (engine.name ++ ".__init__") entry.1))
  | none =>
    let message := message?.or (details.lookup "message")
    let code := code?.or (details.lookup "code")
    return family.report (message.getD .null) (code.getD .null)
      (details.filter fun entry => entry.1 ≠ "message" && entry.1 ≠ "code")

/-- Why the structure of a graph is refused. -/
inductive StructureError where
  | unnamed (name : Value)
  | nameTaken (name : Name)
  | unknownParent (name : Name) (parent : Value)
  | unnamedRole (context : Name) (role : Value)
  | repeatedRole (context role : Name)
  | cyclic (name : Name) (path : List String)
  | unknownEntity (name : Value)
  deriving Repr

namespace StructureError

/-- The family of a structural failure. -/
def family : StructureError → Family
  | unnamed _ | unnamedRole _ _ => .structural
  | nameTaken _ => .duplicateEntity
  | unknownParent _ _ | unknownEntity _ => .unknownEntity
  | repeatedRole _ _ => .duplicateRole
  | cyclic _ _ => .cycle

/-- The message of a structural failure. -/
def message : StructureError → String
  | unnamed _ => "Entity name must be a non-empty string"
  | nameTaken name => s!"Hierarchical instance with name '{name.display}' already exists."
  | unknownParent name parent =>
    s!"Parent {parent.literal} of '{name.display}' is not registered in this graph."
  | unnamedRole context _ => s!"Role names on context '{context.display}' must be non-empty strings"
  | repeatedRole context role =>
    s!"Role instance with name '{role.display}' on context '{context.display}' already exists."
  | cyclic name _ => s!"Cycle detected in the ancestry of '{name.display}'."
  | unknownEntity name => s!"Entity '{name.display}' is not registered in this graph."

/-- Whether the message of a structural failure can be written; of the values that it shows, only a
reference can be anything. -/
def hasText : StructureError → Bool
  | unknownParent _ parent => parent.hasText
  | unknownEntity name => name.hasText
  | _ => true

/-- The details of a structural failure. -/
def details : StructureError → List (String × Value)
  | unnamed name => [("name", name)]
  | nameTaken name => [("name", name.toValue)]
  | unknownParent name parent => [("name", name.toValue), ("parent", parent)]
  | unnamedRole context role => [("context", context.toValue), ("role", role)]
  | repeatedRole context role => [("context", context.toValue), ("role", role.toValue)]
  | cyclic name path => [("name", name.toValue), ("path", .ofTexts path)]
  | unknownEntity name => [("name", name)]

end StructureError

/-- Why a policy is refused. -/
inductive PolicyError where
  | unresolved (name : Value)
  | notContext (name : Name)
  | noRole (context : Name) (role : Value)
  | noSubjectRole (subject : Name) (role : Value)
  | otherRoleOfSelf (context : Name) (role subjectRole : Value)
  | actionsNotMapping (kind : String)
  | unnamedAction (action : Value)
  | actionNotSwitch (action : Name) (kind : String)
  deriving Repr

namespace PolicyError

/-- The message of a refused policy. -/
def message : PolicyError → String
  | unresolved name => (StructureError.unknownEntity name).message
  | notContext name => s!"'{name.display}' is not a context"
  | noRole context role => s!"Context '{context.display}' has no role '{role.display}'"
  | noSubjectRole subject role => s!"Subject '{subject.display}' has no role '{role.display}'"
  | otherRoleOfSelf context _ _ =>
    s!"A policy of '{context.display}' on itself can only target the same role"
  | actionsNotMapping kind => s!"Action policies must be a mapping, got {kind}"
  | unnamedAction _ => "Action names must be non-empty strings"
  | actionNotSwitch action kind =>
    s!"Action '{action.display}' must be set to a bool or 0/1, got {kind}"

/-- Whether the message of a refused policy can be written; of the values that it shows, only references
and roles can be anything. -/
def hasText : PolicyError → Bool
  | unresolved name => name.hasText
  | noRole _ role | noSubjectRole _ role => role.hasText
  | _ => true

/-- The details of a refused policy. -/
def details : PolicyError → List (String × Value)
  | unresolved name => [("name", name)]
  | notContext name => [("context", name.toValue)]
  | noRole context role => [("context", context.toValue), ("role", role)]
  | noSubjectRole subject role => [("subject", subject.toValue), ("role", role)]
  | otherRoleOfSelf context role subjectRole =>
    [("context", context.toValue), ("role", role), ("subject_role", subjectRole)]
  | actionsNotMapping _ => []
  | unnamedAction action => [("action", action)]
  | actionNotSwitch action _ => [("action", action.toValue)]

end PolicyError

/-- Why an operation failed. An interruption is to end the program; it is no failure that a caller
deals with, and only who asks for it catches it. -/
inductive Error where
  | graph (cause : StructureError)
  | policy (cause : PolicyError)
  | callback (subject : Name) (cause : Error)
  | stated (family : Family) (text : String)
  | thrown (kind : String) (argument : Value)
  | interruption (kind : String) (argument : Value)
  | invalid (record : String) (found : List Validation.Fault)
  | misuse (cause : Misuse)
  deriving Repr

namespace Error

/-- The name of the kind of an error. -/
def kind : Error → String
  | graph cause => cause.family.name
  | policy _ | callback _ _ => Family.configuration.name
  | stated family _ => family.name
  | thrown kind _ | interruption kind _ => kind
  | invalid _ _ => "ValidationError"
  | misuse cause => cause.kind

/-- The text of an error. -/
def message : Error → String
  | graph cause => cause.message
  | policy cause => cause.message
  | callback subject cause =>
    s!"Access policy configuration failed for subject '{subject.display}': " ++ cause.message
  | stated family text => if text = "" then family.defaultMessage else text
  | thrown kind argument => if kind = "KeyError" then argument.literal else argument.display
  | interruption _ argument => argument.display
  | invalid record found => Validation.heading record found
  | misuse cause => cause.message

/-- Whether the text of an error can be written. -/
def hasText : Error → Bool
  | graph cause => cause.hasText
  | policy cause => cause.hasText
  | callback _ cause => cause.hasText
  | thrown _ argument | interruption _ argument => argument.hasText
  | misuse cause => cause.hasText
  | stated _ _ | invalid _ _ => true

/-- What comes of an error where it is raised: the message of a setup failure is written there, and where
it cannot be, that is the error. -/
def raised (error : Error) : Error :=
  match error with
  | graph _ | policy _ => if error.hasText then error else misuse .tooManyDigits
  | error => error

/-- A result whose misuse is an error. -/
def ofMisuse {α : Type} (result : Except Misuse α) : Except Error α := result.mapError misuse

/-- Whether an error belongs to the family of refused policies. -/
def isConfiguration : Error → Bool
  | policy _ | callback _ _ => true
  | stated family _ => family = .configuration
  | _ => false

/-- Whether an error is an interruption. -/
def isInterruption : Error → Bool
  | interruption _ _ => true
  | _ => false

/-- The report of a setup failure; other errors have none. -/
def report? (error : Error) : Option Report :=
  let reported (family : Family) (details : List (String × Value)) : Option Report :=
    some (family.report (.text error.message) .null details)
  match error with
  | graph cause => reported cause.family cause.details
  | policy cause => reported .configuration cause.details
  | callback subject _ => reported .configuration [("subject", subject.toValue)]
  | stated family _ => reported family []
  | _ => none

/-- The kind of the error behind a refused policy. -/
def causeKind? : Error → Option String
  | policy (.unresolved _) => some Family.unknownEntity.name
  | callback _ cause => some cause.kind
  | _ => none

end Error

end AccessMatrix
