import AccessMatrix.Log.Record
import AccessMatrix.Misuse

/-!
# Thresholds

A threshold is a number, and the records that are not below it are kept. It can be given as an integer or
by the name of a level, where that is also how the name is shown.
-/

namespace AccessMatrix.Log

/-- The threshold that holds where none is set. -/
def defaultThreshold : Int := Level.warning.number

/-- The threshold that a value sets. The number zero sets none. -/
def thresholdOf (value : Value) : Except Misuse Int :=
  let set (n : Int) : Int := if n = 0 then defaultThreshold else n
  match value, value.asText? with
  | .bool b, _ => .ok (set (if b then 1 else 0))
  | .int n, _ => .ok (set n)
  | _, some name =>
    if value.display = name then
      match Level.numberOfName? name with
      | some n => .ok (set n)
      | none => .error (.unknownLevel value)
    else .error (.levelNotNamed value)
  | _, none => .error (.levelNotNamed value)

/-- The records that are not below a threshold. -/
def Record.atLeast (threshold : Int) (records : List Record) : List Record :=
  records.filter fun record => threshold ≤ record.level.number

end AccessMatrix.Log
