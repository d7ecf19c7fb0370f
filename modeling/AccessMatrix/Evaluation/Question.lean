import AccessMatrix.Evaluation.Decision

/-!
# Questions

A question is a call of a query. On the way it writes texts of what the caller handed over: the failure
and the subject in the warning of a rejected input, and the action in the decision on one that is no
text or has no input to be decided on. Where there is no such text the call fails, and the records made
before stay made.
-/

namespace AccessMatrix.Evaluation

/-- What a question comes to: an answer or why there is none, with the log records made on the way. -/
abbrev Asked (α : Type) := Except Misuse α × List Log.Record

/-- An answer of which a part is written first. -/
def Answer.after {α : Type} (answer : Answer α) (written : Except Misuse Unit) : Asked α :=
  (written.map fun _ => answer.value, answer.records)

/-- Write what the warning of a rejected input shows. -/
def writeRejection (subject : Value) (error : Error) : Except Misuse Unit := do
  if !error.hasText then throw .tooManyDigits
  subject.checkText

/-- Ask for the resolution of the input of a query. -/
def askResolution (e : Engine) (memberships subject : Value) : Asked (Option Resolution) :=
  match readInput e memberships subject with
  | .ok _ => (query e memberships subject).after (.ok ())
  | .error error =>
    match writeRejection subject error with
    | .ok () => (query e memberships subject).after (.ok ())
    | .error misuse => (.error misuse, [])

/-- Ask for the decision on an action. -/
def askDecision (e : Engine) (memberships action subject : Value) : Asked Decision :=
  match askResolution e memberships subject with
  | (.error misuse, records) => (.error misuse, records)
  | (.ok resolution?, _) =>
    match resolution?, Name.ofValue? action with
    | some _, some _ => (explain e memberships action subject).after (.ok ())
    | _, _ => (explain e memberships action subject).after action.checkText

/-- Ask whether an action is allowed. -/
def askAllowed (e : Engine) (memberships action subject : Value) : Asked Bool :=
  let (decision, records) := askDecision e memberships action subject
  (decision.map Decision.allowed, records)

/-- Ask for the policies of an actor. -/
def askPolicies (e : Engine) (memberships subject : Value) : Asked Policy.Actions :=
  match askResolution e memberships subject with
  | (.error misuse, records) => (.error misuse, records)
  | (.ok _, _) => (getActorPolicies e memberships subject).after (.ok ())

end AccessMatrix.Evaluation
