import AccessMatrix.Value.Basic

/-!
# Log records

What a component reports while it works: a level, a message, and, where they are known, the engine
and the subject.
-/

namespace AccessMatrix.Log

/-- A log record. A name of an engine that does not count as given is not attached, nor is an empty
subject. -/
structure Record where
  level : Level
  engine? : Option Value := none
  subject? : Option String := none
  message : String
  deriving Repr

namespace Record

/-- A record of an engine, about a subject if one is named. -/
def ofEngine (level : Level) (engine : Value) (message : String) (subject : String := "") :
    Record where
  level := level
  engine? := if engine.isTruthy then some engine else none
  subject? := if subject = "" then none else some subject
  message := message

end Record

end AccessMatrix.Log
