import AccessMatrix.Log.Clock
import AccessMatrix.Log.Template

/-!
# Events

An event is what a logger hands to be written. It holds its parts by name, and whatever is attached
under the name of a part takes that part's place. Reading it gives its time, its message with the
arguments filled in, and the text of an exception.
-/

namespace AccessMatrix.Log

/-- What an absent exception is called. -/
def absentException : String := "NoneType: None"

/-- The text of an exception that is told by a triple of kind, exception and trace, if it counts as
given. It has to be a triple without an exception and a trace, because no value is either. -/
def troubleText? (trouble : Value) : Except Misuse (Option String) :=
  if !trouble.isTruthy then .ok none
  else do
    let trace ← trouble.item (.int 2)
    let _ ← trouble.item (.int 0)
    let exception ← trouble.item (.int 1)
    match trace, exception with
    | .null, .null => return some absentException
    | .null, exception => throw (.noMember exception.typeName "__suppress_context__")
    | trace, _ => throw (.noMember trace.typeName "tb_frame")

/-- What a logger hands to be written: its parts by name, among them whatever was attached to it.
The time may be stated in place of an instant, and an exception that was raised is told by its
text. -/
structure Event where
  fields : List (Value × Value)
  raised? : Option String := none
  statedTime? : Option String := none
  deriving Repr

namespace Event

/-- What kind of thing an event is. -/
def kind : String := "LogRecord"

/-- The names that belong to an event itself; what is attached under them is not shown. -/
def reserved : List String :=
  ["name", "msg", "args", "created", "filename", "funcName", "levelname", "levelno", "lineno",
    "module", "msecs", "message", "pathname", "process", "processName", "relativeCreated",
    "thread", "threadName", "exc_info", "exc_text", "stack_info", "taskName", "engine", "subject"]

/-- The arguments of a message: a single mapping that is not empty stands for itself. -/
def argsOf (args : List Value) : Value :=
  match args with
  | [.mapping (entry :: rest)] => .mapping (entry :: rest)
  | args => .tuple args

/-- What a level is called: a number by its name, a name by its number, and anything else by its
display. -/
def levelLabel (level : Value) : Except Misuse Value := do
  level.checkKey
  let other : Value := .text ("Level " ++ level.display)
  match level.asText? with
  | some name => return ((Level.numberOfName? name).map fun n => .int n).getD other
  | none => return ((level.asInt?.bind Level.nameOfNumber?).map .text).getD other

/-- The event of a logger: its level as it is called, its message with arguments, and the seconds
and thousandths of the instant. -/
def ofLogger (logger levelName message args : Value) (seconds thousandths : Value := .null) :
    Event where
  fields :=
    [(.text "name", logger), (.text "msg", message), (.text "args", args),
      (.text "levelname", levelName), (.text "exc_info", .null), (.text "created", seconds),
      (.text "msecs", thousandths)]

/-- The event with a part of another value. -/
def withField (e : Event) (name : String) (value : Value) : Event :=
  { e with fields := Value.putEntry e.fields (.text name) value }

/-- Attach a value under a name; it takes the place of what the event has under the name, and a few
names do not take every value. One name stands for all parts at once. -/
def attach (e : Event) (key value : Value) : Except Misuse Event :=
  match key.asText? with
  | none => .error (.memberNotNamed key.typeName)
  | some name =>
    if name = "__class__" then .error (.notClass value.typeName)
    else if name = "__weakref__" then .error (.unwritableMember name kind)
    else if name = "__dict__" then
      match value with
      | .mapping fields => .ok { e with fields, raised? := none }
      | value => .error (.notMembers value.typeName)
    else if name = "exc_info" then .ok { e.withField name value with raised? := none }
    else .ok (e.withField name value)

/-- A part that every event has unless all parts were replaced. -/
def part (e : Event) (name : String) : Except Misuse Value :=
  match Value.field? e.fields name with
  | some value => .ok value
  | none => .error (.noMember kind name)

/-- What is attached under a name if it counts as given. -/
def given (e : Event) (name : String) : Option Value :=
  (Value.field? e.fields name).filter Value.isTruthy

/-- The time of an event. -/
def time (e : Event) : Except Misuse String :=
  match e.statedTime? with
  | some text => .ok text
  | none => do
    let time ← Clock.dateAndTime (← e.part "created")
    return time ++ "," ++ (← Clock.thousandths (← e.part "msecs"))

/-- The message with its arguments filled in; without arguments it stands as it is. A value that is
attached in place of the way to make the message makes none. -/
def text (e : Event) : Except Misuse String :=
  match Value.field? e.fields "getMessage" with
  | some value => .error (.call (.notCallable value.typeName))
  | none => do
    let message ← e.part "msg"
    let args ← e.part "args"
    if args.isTruthy then Template.fill message.display args else return message.display

/-- The text of the exception of an event if there is one. -/
def exceptionText? (e : Event) : Except Misuse (Option String) :=
  match e.raised? with
  | some text => .ok (some text)
  | none => do troubleText? (← e.part "exc_info")

end Event

end AccessMatrix.Log
