import AccessMatrix.Evaluation.Input

/-!
# Resolution

Of the memberships that an actor holds, those count that are on the subject's own instance or on
the instances of the contexts above it. Which instance of a context is above the subject is told by
the subject, and where it is silent by the memberships nearer to the subject.
-/

namespace AccessMatrix.Evaluation

open Policy (accessKey)

/-- The memberships that count for a subject, and the keys of the cells to look up for the subject
and for the entities that it gates. -/
structure Resolution where
  subject : Subject
  direct? : Option Membership := none
  chain : List Membership := []
  accessKeys : List String := []
  controllerKeys : List String := []
  deriving DecidableEq, Repr

/-- The memberships that count, the direct one first. -/
def Resolution.held (r : Resolution) : List Membership := r.direct?.toList ++ r.chain

/-- The instance key of a context in some ancestor keys; an empty key counts as none. -/
def knownKey (ancestors : Table String (Option String)) (context : String) : Option String :=
  (ancestors.get? context).join.filter (· ≠ "")

/-- Add the ancestor keys of a membership where nothing is known yet. -/
def learn (known ancestors : Table String (Option String)) : Table String (Option String) :=
  ancestors.foldl (fun known entry =>
    match entry.2.filter (· ≠ ""), knownKey known entry.1 with
    | some key, none => known.put entry.1 (some key)
    | _, _ => known) known

/-- The memberships on the instances of the contexts above a subject, nearest first. -/
def chainFrom (memberships : List Membership) (given : Table String (Option String)) :
    Table String (Option String) → List String → List Membership
  | _, [] => []
  | known, context :: rest =>
    let found := ((knownKey given context).or (knownKey known context)).bind
      (Membership.lastOn memberships context)
    match found with
    | none => chainFrom memberships given known rest
    | some m => m :: chainFrom memberships given (learn known m.ancestors) rest

/-- The entities that a name gates. -/
def controllersOf (g : Graph) (name : String) : List String :=
  ((g.find? name).map Entity.controllers).getD []

/-- Resolve an input against a graph. -/
def resolve (g : Graph) (input : Input) : Resolution :=
  let subject := input.subject
  let direct? := Membership.lastOn input.memberships subject.name subject.key
  let contexts := (Policy.Round.contextsAbove g subject.name).map Entity.name
  let chain := chainFrom input.memberships subject.ancestors [] contexts
  let held := direct?.toList ++ chain
  let subjectRole := direct?.bind Membership.roleName
  { subject
    direct?
    chain
    accessKeys :=
      (held.map fun m => accessKey m.contextName m.roleName subject.name subjectRole).eraseDups
    controllerKeys :=
      ((controllersOf g subject.name).flatMap fun controller =>
        held.map fun m =>
          accessKey m.contextName m.roleName (g.labelOf controller).display none).eraseDups }

end AccessMatrix.Evaluation
