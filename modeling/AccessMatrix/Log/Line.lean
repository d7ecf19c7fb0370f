import AccessMatrix.Error
import AccessMatrix.Log.Event
import AccessMatrix.Log.Preview

/-!
# Log lines

An event is written as one line, as JSON or plain. Besides its own parts it shows the engine and the
subject and, in JSON, previews of whatever else was attached to it.
-/

namespace AccessMatrix.Log

namespace Event

/-- Whether a key is the name of something that belongs to an event itself. -/
def isReserved (key : Value) : Bool := (key.asText?.map reserved.contains).getD false

/-- The parts of a line by name, in their order: those that every line has, those that are known to
be given, and previews of the rest. -/
def parts (e : Event) (own : List (Value × Value)) (exception? : Option String) :
    List (Value × Value) :=
  let named (name : String) (value? : Option Value) : List (Value × Value) :=
    value?.toList.map fun value => (.text name, value)
  let known := own ++ named "engine" (e.given "engine") ++ named "subject" (e.given "subject") ++
    named "exception" (exception?.map Value.text)
  (e.fields.filter fun entry => !isReserved entry.1).foldl
    (fun parts entry =>
      Value.putEntry parts entry.1 (.text (preview defaultLimit entry.2))) known

/-- A part that a plain line shows has to be a text. -/
def plainPart (position : Nat) (value : Value) : Except Misuse String :=
  match value.asText? with
  | some s => .ok s
  | none => .error (.notText position value.typeName)

/-- The plain line of some parts. -/
def plainLine (e : Event) (parts : List (Value × Value)) : Except Misuse String := do
  let part (name : String) : Value := (Value.field? parts name).getD .null
  let level ← plainPart 1 (part "level")
  let logger ← plainPart 2 (part "logger")
  let named (name : String) : List String :=
    (e.given name).toList.map fun value => name ++ "=" ++ value.display
  return Value.joined " "
    (["[" ++ (part "timestamp").display ++ "]", level, logger] ++ named "engine" ++
      named "subject" ++ [": " ++ (part "message").display])

/-- The line of an event, as JSON or plain. -/
def line (e : Event) (json : Bool) : Except Misuse String := do
  let time ← e.time
  let level ← e.part "levelname"
  let logger ← e.part "name"
  let message ← e.text
  let parts := e.parts
    [(.text "timestamp", .text time), (.text "level", level), (.text "logger", logger),
      (.text "message", .text message)] (← e.exceptionText?)
  if json then Json.encode (.mapping parts)
  else e.plainLine parts

end Event

/-- The text of an exception: its kind, and after a colon its message if there is one. -/
def exceptionText (error : Error) : String :=
  let place := if (Family.ofName? error.kind).isSome then familyModule else ""
  let kind := place ++ error.kind
  if error.message = "" then kind else kind ++ ": " ++ error.message

end AccessMatrix.Log
