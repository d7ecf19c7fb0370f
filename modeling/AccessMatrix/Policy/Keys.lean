import AccessMatrix.Value.Item

/-!
# Policy keys

Compiled policies and queries meet on joined texts. The parts of a key are joined by a dash and not
escaped, so a part that holds a dash can make two keys equal.
-/

namespace AccessMatrix.Policy

/-- What stands in a key where there is no role. -/
def noRole : String := "null"

/-- A role in a key; an empty role counts as none. -/
def keyRole : Option String → String
  | none => noRole
  | some role => if role = "" then noRole else role

/-- A role that is given as any value; what does not count as given is no role. -/
def roleOfValue (value : Value) : Option String :=
  if value.isTruthy then some value.display else none

/-- The key of a cell: context, role, subject, and role on the subject. -/
def accessKey (context : String) (role : Option String) (subject : String)
    (subjectRole : Option String) : String :=
  context ++ "-" ++ keyRole role ++ "-" ++ subject ++ "-" ++ keyRole subjectRole

/-- The parts of a cell's place by name. -/
def placeParameters : List String :=
  ["context_name", "context_role_name", "subject_name", "subject_role_name"]

/-- The key of a cell whose parts are given as any values, one by one. -/
def accessKeyOf : List Value → Except Misuse String
  | [context, role, subject, subjectRole] => do
    [context, role, subject, subjectRole].forM Value.checkText
    return accessKey context.display (roleOfValue role) subject.display (roleOfValue subjectRole)
  | parts => .error (.call (.ofCount "PolicyKeys.access" 0 placeParameters [] parts.length))

/-- The four parts of a cell's place that are given as any values; the role on the subject may be left
out. -/
def placeOf (called : String) : List Value → Except Misuse (Value × Value × Value × Value)
  | [context, role, subject, subjectRole] => .ok (context, role, subject, subjectRole)
  | [context, role, subject] => .ok (context, role, subject, .null)
  | parts =>
    .error (.call (.ofCount ("CompiledPolicies." ++ called) 1 (placeParameters.take 3)
      (placeParameters.drop 3) parts.length))

/-- The key of an action on a subject. -/
def actionKey (subject action : String) : String := subject ++ "-" ++ action

/-- The key of an action on an entity that a subject gates. -/
def controllerKey (controller action : String) : String := controller ++ "." ++ action

/-- The keys of an action on a subject, and on an entity that the subject gates, whose parts are given
as any values. -/
def actionKeysOf : List Value → Except Misuse (String × String)
  | [subject, action] => do
    [subject, action].forM Value.checkText
    return (actionKey subject.display action.display,
      controllerKey subject.display action.display)
  | parts =>
    .error (.call (.ofCount "PolicyKeys.action" 0 ["subject_name", "action"] [] parts.length))

end AccessMatrix.Policy
