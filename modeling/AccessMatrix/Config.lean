import AccessMatrix.Text.Blank
import AccessMatrix.Validation

/-!
# Engine settings

The settings of one engine: its name, which every log record carries, the level and form of its log
lines, and whether decisions are logged. They are read from a record or from environment variables.
-/

namespace AccessMatrix

/-- The settings of one engine. -/
structure Config where
  name : String := "default"
  logLevel : Log.Level := .info
  logJson : Bool := false
  logDecisions : Bool := false
  deriving DecidableEq, Repr

namespace Config

open Validation (Checked Fault refuse)

/-- The name of this record in reports. -/
def recordName : String := "EngineConfig"

/-- An engine name, which has to hold something other than blanks. -/
def checkName (value : Value) : Checked String := do
  let name ← Validation.text value
  if Text.isAllBlank name then refuse (.rejected "Engine name must not be blank") else .ok name

/-- The level names as a list. -/
def levelNames : String := Value.textsLiteral (Log.Level.all.map Log.Level.name)

/-- A log level, given as one or by its name in letters of either case. -/
def checkLevel (value : Value) : Checked Log.Level :=
  match value, value.asText? with
  | .level l, _ => .ok l
  | _, some s =>
    match Log.Level.ofName? s with
    | some l => .ok l
    | none =>
      let shown := value.display
      refuse (.rejected s!"Invalid log level: {shown}. Must be one of {levelNames}")
  | _, none =>
    let kind := value.typeName
    refuse (.rejected s!"Log level must be string or LogLevel enum, got <class '{kind}'>")

/-- The names of the declared fields. -/
def fieldNames : List String := ["name", "log_level", "log_json", "log_decisions"]

/-- Read settings from the entries of a mapping; no other fields are allowed. -/
def ofEntries (given : List (Value × Value)) : Checked Config :=
  let field {α : Type} (name : String) (default : α) (check : Value → Checked α) : Checked α :=
    (Validation.Field.plain name).optional given default check
  let name := field "name" "default" checkName
  let level := field "log_level" .info checkLevel
  let json := field "log_json" false Validation.switch
  let decisions := field "log_decisions" false Validation.switch
  let extra := Validation.undeclared fieldNames given
  match name, level, json, decisions, extra with
  | .ok name, .ok level, .ok json, .ok decisions, [] => .ok ⟨name, level, json, decisions⟩
  | name, level, json, decisions, extra =>
    .error (Validation.faults name ++ Validation.faults level ++ Validation.faults json ++
      Validation.faults decisions ++ extra)

/-- Read settings from a value. -/
def ofValue (value : Value) : Checked Config := Validation.record recordName ofEntries value

/-- The words that switch a setting on in the environment. -/
def onWords : List String := ["true", "1", "yes", "on"]

/-- Read settings from environment variables; a variable that is not set leaves the default. -/
def ofEnvironment (lookup : String → Option String) : Checked Config :=
  let isOn (name : String) : Bool :=
    ((lookup name).map (Validation.isWordOf onWords)).getD false
  ofValue (Value.ofFields
    [("name", .text ((lookup "PERMISSION_MANAGER_NAME").getD "default")),
      ("log_level", .text ((lookup "LOG_LEVEL").getD "INFO")),
      ("log_json", .bool (isOn "LOG_JSON")),
      ("log_decisions", .bool (isOn "PERMISSION_LOG_DECISIONS"))])

end Config

end AccessMatrix
