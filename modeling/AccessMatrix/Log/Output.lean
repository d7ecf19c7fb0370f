import AccessMatrix.Config
import AccessMatrix.Log.Line

/-!
# Log output

Output is set up once: a threshold and a form. A logger bound to an engine adds the engine and the
subject to what it is asked to log; what is below the threshold is not written.
-/

namespace AccessMatrix.Log

/-- Put a value under a text into what was attached, which has to be a mapping. -/
def putAttached (attached : Value) (name : String) (value : Value) : Except Misuse Value :=
  match attached with
  | .mapping entries => .ok (.mapping (Value.putEntry entries (.text name) value))
  | .list _ => .error (.indexedBy "list" "str")
  | other => .error (.notAssignable other.typeName)

/-- Put a value that counts as given, and leave out any other. -/
def putGiven (attached : Value) (name : String) (value : Value) : Except Misuse Value :=
  if value.isTruthy then putAttached attached name value else .ok attached

/-- The options of a call without those of some names. -/
def without (options : List (Value × Value)) (names : List String) : List (Value × Value) :=
  options.filter fun entry => !names.any fun name => entry.1.sameKey (.text name)

/-- The options that a logger bound to an engine passes on: the engine, which the call may replace,
and the subject are moved into what is attached. -/
def boundOptions (engine : Value) (options : List (Value × Value)) :
    Except Misuse (List (Value × Value)) := do
  let engine := (Value.field? options "engine").getD engine
  let subject := (Value.field? options "subject").getD .null
  let attached := (Value.field? options "extra").getD (.mapping [])
  let attached ← putGiven attached "engine" engine
  let attached ← putGiven attached "subject" subject
  return Value.putEntry (without options ["engine", "subject"]) (.text "extra") attached

/-- The options that a logger bound to an engine passes on, which have to be a mapping. -/
def boundOptionsOf (engine : Value) : Value → Except Misuse (List (Value × Value))
  | .mapping options => boundOptions engine options
  | .list _ => .error (.call (.atMost "pop" 1 2))
  | other => .error (.noMember other.typeName "pop")

/-- A threshold and the form of lines. -/
structure Output where
  threshold : Level
  json : Bool
  deriving DecidableEq, Repr

namespace Output

/-- The output that settings ask for; the form can be given apart from them. -/
def ofConfig (config : Config) (json? : Option Bool) : Output where
  threshold := config.logLevel
  json := json?.getD config.logJson

/-- Whether a level is written: it has to be a number and not below the threshold. -/
def isEnabled (output : Output) (level : Value) : Except Misuse Bool := do
  level.checkKey
  let atLeast (n : Int) : Bool := (output.threshold.number : Int) ≤ n
  match level with
  | .float x =>
    return match x.floor? with
      | some n => atLeast n
      | none => !x.isUndefined && !x.isNegative
  | level =>
    match level.asInt? with
    | some n => return atLeast n
    | none => throw (.notOrdered ">=" "int" level.typeName)

end Output

/-- The options that a call of a logger may give. -/
def callOptions : List String := ["exc_info", "extra", "stack_info", "stacklevel"]

/-- The names that nothing can be attached under. -/
def unattachable : List String :=
  ["message", "asctime", "name", "msg", "args", "levelname", "levelno", "pathname", "filename",
    "module", "exc_info", "exc_text", "stack_info", "lineno", "funcName", "created", "msecs",
    "relativeCreated", "thread", "threadName", "processName", "process"]

/-- Whether something can no more be attached under a key. -/
def isTaken (event : Event) (key : Value) : Bool :=
  (key.asText?.map unattachable.contains).getD false || (Value.lookup event.fields key).isSome

/-- Attach to an event what a value holds under some keys. -/
def attachUnder (given : Value) (event : Event) : List Value → Except Misuse Event
  | [] => .ok event
  | key :: rest => do
    key.checkKey
    if isTaken event key then throw (.reservedField key)
    let value ← given.item key
    attachUnder given { event with fields := event.fields ++ [(key, value)] } rest

/-- Attach what a call gives to an event: everything that the value holds under the items that it
yields, which for a mapping are its keys. -/
def attachAll (event : Event) (given : Value) : Except Misuse Event :=
  match given with
  | .null => .ok event
  | given => do attachUnder given event (← given.iterate)

/-- The name of the logger on top, which every name that does not count as given means. -/
def rootLogger : String := "root"

/-- The name of the logger that a value names. -/
def loggerName (value : Value) : Except Misuse String :=
  if value.isTruthy then
    match value.asText? with
    | some name => .ok name
    | none => .error .loggerNotText
  else .ok rootLogger

/-- A call of the logger of a name, bound to an engine. -/
structure LogCall where
  logger : String
  engine : Value := .null
  level : Value
  message : Value
  args : Value := .list []
  options : Value := .mapping []
  deriving Repr

namespace LogCall

/-- The arguments of the message. -/
def messageArgs (call : LogCall) : Except Misuse (List Value) :=
  match call.args.items? with
  | some items => .ok items
  | none => .error (.call (.notSequence call.args.typeName))

/-- The options by name: they are texts and none is of an argument that every call has. -/
def checkedOptions (call : LogCall) : Except Misuse (List (Value × Value)) := do
  let options ←
    match call.options with
    | .mapping options => pure options
    | other => throw (.call (.notMapping "logging.LoggerAdapter.log()" other.typeName))
  let names ← options.mapM fun entry =>
    match Name.ofValue? entry.1 with
    | some name => Except.ok name.display
    | none => .error (.call .nameNotText)
  CallFault.checkNames "LoggerAdapter.log" names ["self", "level", "msg"] names
  return options

/-- The number of calls to pass over when the place of a call is looked for has to be a number. -/
def checkDepth (options : List (Value × Value)) : Except Misuse Unit :=
  match Value.field? options "stacklevel" with
  | none | some (.bool _) | some (.int _) | some (.float _) => .ok ()
  | some other => .error (.notOrdered ">" other.typeName "int")

/-- What a call tells about an exception while none is being handled: a tuple stands for itself, and
any other value that counts as given for the absent exception. -/
def trouble (options : List (Value × Value)) : Value :=
  match (Value.field? options "exc_info").getD .null with
  | .tuple items => .tuple items
  | value => if value.isTruthy then .tuple [.null, .null, .null] else .null

/-- The event of a call of a level that is written. -/
def event (call : LogCall) (args : List Value) (options : List (Value × Value)) (time : String) :
    Except Misuse Event := do
  let options ← boundOptions call.engine options
  let levelName ←
    match call.level with
    | .float _ => throw .levelNotInteger
    | level => Event.levelLabel level
  CallFault.checkNames "Logger._log" callOptions ["args"]
    (options.map fun entry => entry.1.display)
  checkDepth options
  let event := Event.ofLogger (.text call.logger) levelName call.message (Event.argsOf args)
  attachAll { event.withField "exc_info" (trouble options) with statedTime? := some time }
    ((Value.field? options "extra").getD .null)

/-- What a call writes: nothing below the threshold, nothing for an event that has no line, and else
the line and a line end. -/
def write (call : LogCall) (output : Output) (time : String) : Except Misuse String := do
  let args ← call.messageArgs
  let options ← call.checkedOptions
  if !(← output.isEnabled call.level) then return ""
  let event ← call.event args options time
  match event.line output.json with
  | .ok line => return line ++ "\n"
  | .error _ => return ""

end LogCall

end AccessMatrix.Log
