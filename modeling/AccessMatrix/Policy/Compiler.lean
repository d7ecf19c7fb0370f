import AccessMatrix.Policy.Snapshot

/-!
# The policy compiler

The compiler keeps every round that was ever begun, because a setter goes on recording in the round
that it was made for. One round is current: declarations go there and a build compiles it. The
published snapshot changes at a build and when a configured round is adopted, and at no other time.
-/

namespace AccessMatrix.Policy

/-- The identity of a round: how many were begun before it. -/
abbrev RoundId := Nat

/-- The rounds begun so far, the current one, and the published snapshot. -/
structure Compiler where
  rounds : List Round := [{}]
  current : RoundId := 0
  published : Snapshot := {}
  deriving DecidableEq, Repr

namespace Compiler

/-- The declarations of a round. -/
def round (c : Compiler) (id : RoundId) : Round := (c.rounds[id]?).getD {}

/-- Begin a round without making it current. -/
def stage (c : Compiler) : Compiler × RoundId :=
  ({ c with rounds := c.rounds ++ [{}] }, c.rounds.length)

/-- Record a declaration in a round. -/
def record (c : Compiler) (id : RoundId) (d : Declaration) : Compiler × Option Redeclaration :=
  let (round, warning) := (c.round id).add d
  ({ c with rounds := c.rounds.set id round }, warning)

/-- Drop all declarations; the snapshot stays published. -/
def clear (c : Compiler) : Compiler :=
  let (c, id) := c.stage
  { c with current := id }

/-- Publish the compilation of the current round. -/
def build (c : Compiler) (g : Graph) : Compiler :=
  { c with published := .compile g (c.round c.current) }

/-- Make a round current and publish its compilation. -/
def adopt (c : Compiler) (g : Graph) (id : RoundId) : Compiler :=
  ({ c with current := id }).build g

/-- Recording is seen in the round that was begun under the number, and in no other. -/
theorem round_record (c : Compiler) (id other : RoundId) (d : Declaration)
    (h : id < c.rounds.length) :
    (c.record id d).1.round other = if id = other then ((c.round id).add d).1 else c.round other := by
  by_cases ho : id = other
  · subst ho
    simp [record, round, h]
  · simp [record, round, ho]

/-- Beginning a round changes no round. -/
theorem round_stage (c : Compiler) (id : RoundId) : c.stage.1.round id = c.round id := by
  rcases Nat.lt_trichotomy id c.rounds.length with h | h | h
  · simp [stage, round, List.getElem?_append_left h]
  · simp [stage, round, h]
  · have hrounds : c.rounds[id]? = none := List.getElem?_eq_none (Nat.le_of_lt h)
    have hstaged : (c.rounds ++ [({} : Round)])[id]? = none :=
      List.getElem?_eq_none (by rw [List.length_append]; exact h)
    simp only [stage, round, hrounds, hstaged]

/-- A round begins empty. -/
theorem round_stage_new (c : Compiler) : c.stage.1.round c.stage.2 = {} := by
  simp [stage, round]

end Compiler

/-- What is asked for when a policy is declared. Without a scope every role on the subject is
covered. -/
structure Request where
  context : Ref
  role : Value
  subject : Ref
  actions : Value
  subjectRole? : Option Value := none
  deriving Repr

namespace Request

/-- The entity that a declaration names. -/
def resolve (g : Graph) (ref : Ref) : Except Error Entity :=
  match g.require ref with
  | .error (.graph (.unknownEntity name)) => .error (.policy (.unresolved name))
  | result => result

/-- The role that a value names among an entity's roles, as the value spells it. -/
def roleOf (e : Entity) (role : Value) : Option Name :=
  (Name.ofValue? role).filter (·.text ∈ e.roles)

/-- The scope of a declaration: a role on the subject has to be one of the subject's, and a context
can name only the declared role on itself. -/
def checkScope (context : Entity) (role : Name) (subject : Entity) :
    Option Value → Except PolicyError Scope
  | none => .ok .every
  | some value =>
    let named : Except PolicyError (Option Name) :=
      match value with
      | .null => .ok none
      | value =>
        match roleOf subject value with
        | some found => .ok (some found)
        | none => .error (.noSubjectRole subject.label value)
    named.bind fun found =>
      if context.name = subject.name && found.map Name.text ≠ some role.text then
        .error (.otherRoleOfSelf context.label role.toValue value)
      else .ok (.only found)

/-- Check a declaration against a graph. -/
def check (g : Graph) (r : Request) : Except Error Declaration := do
  let context ← resolve g r.context
  let subject ← resolve g r.subject
  if !context.isContext then throw (.policy (.notContext context.label))
  let some role := roleOf context r.role | throw (.policy (.noRole context.label r.role))
  let scope ← (checkScope context role subject r.subjectRole?).mapError Error.policy
  let actions ← (checkActions r.actions).mapError Error.policy
  return { context := context.label, role, subject := subject.label, scope, actions }

end Request

end AccessMatrix.Policy
