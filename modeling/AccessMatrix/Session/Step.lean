import AccessMatrix.Session.Basic
import AccessMatrix.Session.Roles

/-!
# Running a step

A step takes the session to a next one and answers or fails. What it mentioned before it failed stays
registered.
-/

namespace AccessMatrix

namespace Session

open Policy (Snapshot)

/-- The references that a step mentions. -/
def Step.mentions : Step → List Ref
  | .register r =>
    match r.parents with
    | .each refs => refs
    | .among _ => []
  | .registerAgain ref | .require ref | .contains ref | .role ref _ => [ref]
  | .compareRoles a b => [a.1, b.1]
  | .declare r => [r.context, r.subject]
  | .refused mentioned _ => mentioned
  | _ => []

/-- Register an entity. -/
def register (s : Session) (r : Registration) : Except Error (Entity × Session) :=
  (s.engine.graph.register r).map fun (g, e) => (e, (s.withGraph g).log [registered g e])

/-- Register an entity that was registered before: refused under a name in use here. The entities of
another graph that a session mentions are contexts, and a context has given up its role list where it
was registered. What comes of others is told where entities are objects in a memory. -/
def refuseAgain (g : Graph) : Ref → Except Error Unit
  | .own name => .error (.graph (.nameTaken (g.labelOf name)))
  | .foreign name =>
    if g.has name then .error (.graph (.nameTaken (.plain name)))
    else .error (.misuse (.noMember Kind.context.name "_role_names"))
  | .value v =>
    match v.memberName? with
    | some name =>
      if g.has name then .error (.graph (.nameTaken (.plain name)))
      else .error (.misuse (.noMember v.typeName "parents"))
    | none => .error (.misuse (.noMember v.typeName "name"))

/-- The snapshot put aside under a label, or the published one. -/
def snapshot (s : Session) : Option Value → Except Error Snapshot
  | none => .ok s.engine.compiler.published
  | some label => aside s.held label

/-- The declared actions of a cell that is named by any values. -/
def declaredActions (s : Snapshot) (context role subject subjectRole : Value) :
    Except Error Policy.Actions := do
  for part in [context, role, subject, subjectRole] do Error.ofMisuse part.checkKey
  let subjectRole? : Option (Option String) :=
    match subjectRole with
    | .null => some none
    | value => value.asText?.map some
  match context.asText?, role.asText?, subject.asText?, subjectRole? with
  | some context, some role, some subject, some subjectRole =>
    return s.declared ⟨context, role, subject, subjectRole⟩
  | _, _, _, _ => return []

/-- Call a kept setter. -/
def callKept (s : Session) (label : Value) (given : Given) : Except Error Session := do
  let setter ← aside s.kept label
  let (value?, named) ← given
  s.callSetter setter value? named

/-- The entity that a value names. -/
def requireNamed (g : Graph) (name : Value) : Except Error Entity := g.require (.value name)

/-- The entities that the items of a value name. -/
def requireAll (g : Graph) (names : Value) : Except Error (List Entity) := do
  (← Error.ofMisuse names.iterate).mapM (requireNamed g)

/-- Fail with the first cycle met in a graph. -/
def cyclic {α : Type} (g : Graph) (result : Except Graph.Cycle α) : Except Error α :=
  result.mapError fun cycle => .graph (.cyclic (g.labelOf cycle.name) cycle.path)

/-- What is done as a whole: a failure leaves the session as it is, and the message of the failure is
written where it is raised. -/
def whole (s : Session) : Except Error (Reply × Session) → Except Error Reply × Session
  | .ok (reply, next) => (.ok reply, next)
  | .error e => (.error e.raised, s)

/-- What a question comes to: its records are made also if it has no answer. -/
def asked {α : Type} (s : Session) (asked : Evaluation.Asked α) (reply : α → Reply) :
    Except Error Reply × Session :=
  ((Error.ofMisuse asked.1).map reply, s.log asked.2)

/-- Run a step whose references have been looked up. -/
def Step.perform (step : Step) (s : Session) : Except Error Reply × Session :=
  let g := s.engine.graph
  let c := s.engine.compiler
  match step with
  | .register r => s.whole ((s.register r).map fun (e, s) => (.shown e.display, s))
  | .registerAgain ref => s.whole ((refuseAgain g ref).map fun _ => (.done, s))
  | .assignParents name parents => s.whole do
    let e ← requireNamed g name
    let parents := (← requireAll g parents).map Entity.name
    return (.names parents, s.withGraph (g.assignParents e.name parents))
  | .entity name => s.whole ((g.get name).map fun e? => (.entity e?, s))
  | .graph => (.ok (.graph g s.engine.display), s)
  | .require ref => s.whole ((g.require ref).map fun e => (.shown e.display, s))
  | .contains ref => s.whole ((g.includes ref).map fun found => (.flag found, s))
  | .role context name => s.whole do
    let e ← g.require context
    return (.shownIfAny (← showRole e name), s)
  | .compareRoles a b => s.whole ((roleComparison a b).map fun reply => (reply, s))
  | .declare r => s.whole ((r.check g).map fun d =>
    let (c, warning?) := c.record c.current d
    (.done, (s.withCompiler c).warn warning?))
  | .callKept label given => s.whole ((s.callKept label given).map fun s => (.done, s))
  | .build =>
    let c := c.build g
    (.ok (.shown c.published.display), s.publish c)
  | .clear => (.ok .done, s.withCompiler c.clear)
  | .hold label => s.whole ((putAside s.held label c.published).map fun held =>
    (.done, { s with held }))
  | .compiled held => s.whole ((s.snapshot held).map fun snapshot => (.snapshot snapshot, s))
  | .allowanceFor subject action => s.whole do
    Error.ofMisuse ([subject, action].forM Value.checkText)
    return (.keys (c.published.allowanceFor subject.display action.display), s)
  | .cell context contextRole subject subjectRole => s.whole do
    let key ← Error.ofMisuse (Policy.accessKeyOf [context, contextRole, subject, subjectRole])
    return (.cell (c.published.cellAt key), s)
  | .declared context contextRole subject subjectRole =>
    s.whole ((declaredActions c.published context contextRole subject subjectRole).map fun actions =>
      (.actions actions, s))
  | .adaptMemberships adapter? =>
    (.ok .done, { s with engine := { s.engine with membershipAdapter? := adapter? } })
  | .adaptSubjects adapter? =>
    (.ok .done, { s with engine := { s.engine with subjectAdapter? := adapter? } })
  | .isAllowed memberships action subject =>
    s.asked (Evaluation.askAllowed s.engine memberships action subject) .flag
  | .explain memberships action subject =>
    s.asked (Evaluation.askDecision s.engine memberships action subject) .decision
  | .actorPolicies memberships subject =>
    s.asked (Evaluation.askPolicies s.engine memberships subject) .actions
  | .resolve memberships subject =>
    s.asked (Evaluation.askResolution s.engine memberships subject) .resolution
  | .paths name => s.whole do
    let e ← requireNamed g name
    return (.paths (← cyclic g (g.paths e.name)), s)
  | .relationships names => s.whole do
    let found ← requireAll g names
    return (.relationships (← cyclic g (found.mapM g.relationship)), s)
  | .hierarchy => s.whole ((cyclic g (View.ofGraph g)).map fun view => (.view view, s))
  | .refused _ error => (.error error, s)

/-- Run a step. -/
def Step.run (step : Step) (s : Session) : Except Error Reply × Session :=
  match s.mentionAll step.mentions with
  | (.error e, s) => (.error e, s)
  | (.ok (), s) => step.perform s

end Session

end AccessMatrix
