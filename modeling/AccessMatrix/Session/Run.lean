import AccessMatrix.Session.Callback
import AccessMatrix.Session.Step

/-!
# Running a session

Every command takes the session to a next one and answers or fails; what it changed before it failed
stays changed. A configuration works on a round of its own and adopts it only if the callback ends
without failure.
-/

namespace AccessMatrix

namespace Session

mutual

/-- Run a command. -/
def Command.run : Command → Session → Except Error Reply × Trace × Session
  | .step step, s =>
    let (result, s) := step.run s
    (result, {}, s)
  | .configure rules, s =>
    let (c, round) := s.engine.compiler.stage
    let contexts := s.engine.graph.contexts.map Entity.name
    let (result, trace, s) := visitAll
      (fun subject visit => Rule.followAll rules ⟨round, contexts, subject, visit⟩)
      s.engine.graph.names {} (s.withCompiler c)
    match result with
    | .error e => (.error e, trace, s)
    | .ok () =>
      let c := s.engine.compiler.adopt s.engine.graph round
      (.ok (.shown c.published.display), trace, s.publish c)
  | .forEachSubject rules, s =>
    let round := s.engine.compiler.current
    let contexts := s.engine.graph.contexts.map Entity.name
    let (result, trace, s) := visitAll
      (fun subject visit => Rule.followAll rules ⟨round, contexts, subject, visit⟩)
      s.engine.graph.names {} s
    (result.map fun _ => .done, trace, s)

/-- Follow the rules of a callback in their order, until one fails. -/
def Rule.followAll : List Rule → Call → Trace → Session → Visit
  | [], _, trace, s => (.ok (), trace, s)
  | rule :: rest, call, trace, s =>
    match Rule.follow rule call trace s with
    | (.ok (), trace, s) => Rule.followAll rest call trace s
    | (.error e, trace, s) => (.error e, trace, s)

/-- Follow a rule if it is for the subject. -/
def Rule.follow : Rule → Call → Trace → Session → Visit
  | .mk subject? task, call, trace, s =>
    if subject?.all (·.asText? = some call.subject) then Task.perform task call trace s
    else (.ok (), trace, s)

/-- Do what a rule says. -/
def Task.perform : Task → Call → Trace → Session → Visit
  | .set context role form keep? given, call, trace, s =>
    match call.set s context role form keep? given with
    | .error e => (.error e, trace, s)
    | .ok s => (.ok (), trace, s)
  | .fail error, _, trace, s => (.error error, trace, s)
  | .probe, call, trace, s =>
    match call.sight s with
    | .error misuse => (.error (.misuse misuse), trace, s)
    | .ok sight => (.ok (), { trace with sights := trace.sights ++ [sight] }, s)
  | .run command, _, trace, s =>
    let (result, _, s) := Command.run command s
    (result.map fun _ => (), trace, s)
  | .attempt caught body handler, call, trace, s =>
    match Rule.followAll body call trace s with
    | (.ok (), trace, s) => (.ok (), trace, s)
    | (.error e, trace, s) =>
      if caught e then Rule.followAll handler call trace s else (.error e, trace, s)

end

/-- Run a command and take the log records that it made out of the session. -/
def Command.execute (command : Command) (s : Session) :
    Except Error Reply × Trace × List Log.Record × Session :=
  let (result, trace, s) := command.run { s with records := [] }
  (result, trace, s.records, s)

end Session

end AccessMatrix
