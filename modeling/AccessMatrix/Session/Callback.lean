import AccessMatrix.Session.Basic

/-!
# Callbacks

A callback is called for one subject after the other. It sees every context through a view that is made
for the subject, and reaches the setters of the roles there.
-/

namespace AccessMatrix

namespace Session

open Policy (Setter RoundId)

/-- A callback at work: the round that its setters record in, the contexts that it sees, the subject
that it was called for, and the number of subjects visited before. -/
structure Call where
  round : RoundId
  contexts : List String
  subject : String
  visit : Nat

/-- The view of a context as it is made. -/
def freshView (g : Graph) (context : String) : Policy.ContextView where
  context := g.labelOf context
  shown := ((g.find? context).map Entity.display).getD context
  roles := g.roleLabelsOf context

/-- Where the callback reaches the setters of a context. -/
def Call.reach (call : Call) (s : Session) (context : String) : Policy.Reach :=
  let id : Policy.ViewId := ⟨call.visit, context⟩
  let made := freshView s.engine.graph context
  { id, made, view := (s.views.get? id).getD made, round := call.round,
    subject := s.engine.graph.labelOf call.subject }

/-- What the callback sees. -/
def Call.sight (call : Call) (s : Session) : Except Misuse Sight := do
  let contexts ← call.contexts.mapM fun context => do
    let view := (call.reach s context).view
    let _ ← view.length
    return (view.context, ← view.keys)
  return { subject := s.engine.graph.labelOf call.subject, contexts }

/-- Where the callback reaches the setters of the context that a value names. -/
def Call.find (call : Call) (s : Session) (context : Value) : Except Misuse Policy.Reach := do
  context.checkKey
  match context.asText?.filter (· ∈ call.contexts) with
  | some name => return call.reach s name
  | none => throw (.noKey context)

/-- Reach a setter and call it, or keep it under a label. -/
def Call.set (call : Call) (s : Session) (context role : Value) (form : Policy.Form)
    (keep? : Option Value) (given : Given) : Except Error Session := do
  let reach ← Error.ofMisuse (call.find s context)
  let setter ← Error.ofMisuse (reach.find form role)
  match keep? with
  | some label => return { s with kept := ← putAside s.kept label setter }
  | none =>
    let (value?, named) ← given
    s.callSetter setter value? named

/-- What a part of a callback leaves: its result, what it visited and saw, and the session. -/
abbrev Visit := Except Error Unit × Trace × Session

/-- What comes of an error of a callback: a refused policy and an interruption pass as they are, and any
other error is reported with its text. An error whose text cannot be written fails anew. -/
def callbackError (subject : Name) (error : Error) : Error :=
  if error.isConfiguration || error.isInterruption then error
  else if error.hasText then .callback subject error
  else .misuse .tooManyDigits

/-- Call a callback for one subject after the other, until it fails. It is told how many subjects were
visited before. -/
def visitAll (callback : String → Nat → Trace → Session → Visit) :
    List String → Trace → Session → Visit
  | [], trace, s => (.ok (), trace, s)
  | subject :: rest, trace, s =>
    match callback subject s.visits { trace with visited := trace.visited ++ [subject] }
        { s with visits := s.visits + 1 } with
    | (.ok (), trace, s) => visitAll callback rest trace s
    | (.error e, trace, s) => (.error (callbackError (s.engine.graph.labelOf subject) e), trace, s)

end Session

end AccessMatrix
