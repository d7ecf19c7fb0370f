import AccessMatrix.Evaluation.Resolution

/-!
# Decisions

An action is allowed when a key of the resolution is among the keys that the published snapshot
allows it to. Whatever cannot be read or is not known is refused.
-/

namespace AccessMatrix.Evaluation

open Policy (Snapshot Actions actionKey controllerKey)

/-- The answer to one question, with what it rests on. -/
structure Decision where
  allowed : Bool
  action : Name
  actionKey : String
  grantingKeys : List String := []
  resolution? : Option Resolution := none
  deriving DecidableEq, Repr

/-- Decide one action for a resolution. -/
def decide (s : Snapshot) (r : Resolution) (action : Name) : Decision :=
  let key := actionKey r.subject.name action.display
  let granting := (s.keysFor key).filter r.accessKeys.contains
  { allowed := !granting.isEmpty, action, actionKey := key, grantingKeys := granting,
    resolution? := some r }

/-- Decide every action for a resolution, and each action on an entity that the subject gates if it
is allowed there. -/
def actorPolicies (g : Graph) (s : Snapshot) (r : Resolution) : Actions :=
  let subject := r.subject.name
  let own : Actions := Table.ofPairs (s.actions.map fun action =>
    (action.text, (s.allowanceFor subject action.display).any r.accessKeys.contains))
  let gated := (sortedNames (controllersOf g subject)).flatMap fun controller =>
    let shown := (g.labelOf controller).display
    (s.actions.filter fun action =>
      (s.allowanceFor shown action.display).any r.controllerKeys.contains).map fun action =>
        (controllerKey shown action.display, true)
  gated.foldl (fun policies entry => policies.put entry.1 entry.2) own

/-- An answer with the log records made on the way. -/
structure Answer (α : Type) where
  value : α
  records : List Log.Record := []

/-- Resolve the input of a query; a rejected input makes a record. -/
def query (e : Engine) (memberships subject : Value) : Answer (Option Resolution) :=
  match readInput e memberships subject with
  | .ok input => { value := some (resolve e.graph input) }
  | .error error => { value := none, records := [rejection e subject error] }

/-- The record of a decision. -/
def decisionRecord (e : Engine) (r : Resolution) (decision : Decision) : Log.Record :=
  let word := if decision.allowed then "Allowed" else "Denied"
  let keys := Value.textsLiteral (sortedNames r.accessKeys)
  .ofEngine .debug e.name
    s!"{word} {decision.action.display} on {r.subject.key} (keys: {keys})" r.subject.name

/-- Decide an action on a subject for the holder of memberships, with what the answer rests on. -/
def explain (e : Engine) (memberships action subject : Value) : Answer Decision :=
  let resolved := query e memberships subject
  match resolved.value, Name.ofValue? action with
  | some r, some name =>
    let decision := decide e.compiler.published r name
    { value := decision
      records := resolved.records ++
        (if e.config.logDecisions then [decisionRecord e r decision] else []) }
  | _, _ =>
    { value := { allowed := false, action := .plain action.display, actionKey := "" }
      records := resolved.records }

/-- Whether the holder of memberships may do an action on a subject. -/
def isAllowed (e : Engine) (memberships action subject : Value) : Answer Bool :=
  let explained := explain e memberships action subject
  { value := explained.value.allowed, records := explained.records }

/-- Every declared action with whether it is allowed on a subject, and the actions allowed on the
entities that the subject gates. -/
def getActorPolicies (e : Engine) (memberships subject : Value) : Answer Actions :=
  let resolved := query e memberships subject
  { value := (resolved.value.map (actorPolicies e.graph e.compiler.published)).getD []
    records := resolved.records }

end AccessMatrix.Evaluation
