import AccessMatrix.Misuse

/-!
# Levels of rows

Rows that stand under a given one have the levels that follow its own. A level is a number and need
not be a whole one.
-/

namespace AccessMatrix

/-- The number after a number, one apart from it and rounded. -/
def Binary64.next (x : Binary64) : Binary64 := ⟨(Float.ofBits x.bits + 1.0).toBits⟩

/-- The level that stands a number of steps below a given one. -/
def levelBelow (level : Value) (steps : Nat) : Except Misuse Value :=
  match level with
  | .float x => .ok (.float (steps.repeat Binary64.next x))
  | .bool b => .ok (.int ((if b then 1 else 0) + steps))
  | .int n => .ok (.int (n + steps))
  | other => .error (.notAddable other.typeName)

end AccessMatrix
