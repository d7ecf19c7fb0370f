import AccessMatrix.Session.Command

/-!
# Roles of a session

A role is shown with its context. Two roles are equal when their names are and what they are made for
is one thing.
-/

namespace AccessMatrix

namespace Session

/-- The role of a context under a name, as it is shown. -/
def showRole (e : Entity) (name : Value) : Except Error (Option String) :=
  if e.isContext then
    .ok ((Name.among? e.roleLabels name).map fun role =>
      s!"Role(name={role.literal}, context={e.label.literal})")
  else .error (.misuse (.noMember e.kind.name "role"))

/-- Whether two values that are given apart are one thing. Only the smallest values are, and the members
of enumerations. -/
def oneThing : Value → Value → Bool
  | .null, .null => true
  | .bool a, .bool b => a = b
  | .int m, .int n => m = n && -5 ≤ m && m ≤ 256
  | .float x, .float y => x = y && !x.isFinite
  | .text s, .text t => s = t && s.length ≤ 1 && s.toList.all fun c => c.toNat < 0x100
  | .level l, .level k => l = k
  | .styled s, .styled t => s = t && s.member?.isSome
  | .tuple [], .tuple [] => true
  | _, _ => false

/-- Whether two references mean one thing. -/
def sameThing : Ref → Ref → Bool
  | .own a, .own b => a = b
  | .foreign a, .foreign b => a = b
  | .value v, .value w => oneThing v w
  | _, _ => false

/-- Whether two values are equal as names of roles. Only an undefined number is the same key as
itself and yet not equal to itself. -/
def equalNames (a b : Value) : Bool :=
  match a with
  | .float x => !x.isUndefined && a.sameKey b
  | _ => a.sameKey b

/-- Compare two roles: they are equal when their names are and what they are made for is one thing, and
a role never equals its name. -/
def roleComparison (a b : Ref × Value) : Except Error Reply := do
  let equal := equalNames a.2 b.2 && sameThing a.1 b.1
  Error.ofMisuse a.2.checkKey
  Error.ofMisuse b.2.checkKey
  return .comparison equal (if equal then 1 else 2) false

end Session

end AccessMatrix
