import AccessMatrix.Evaluation.Question
import AccessMatrix.Hierarchy.View
import AccessMatrix.Policy.Setter

/-!
# Commands of a session

A session works on one engine, command by command. A configuration callback is given as rules, which
are followed for every subject: a rule calls or keeps a setter, fails, looks at what the callback
sees, runs another command of the session, or tries other rules and deals with their failure.
-/

namespace AccessMatrix.Session

open Policy (Snapshot Setter Actions Cell)

/-- The arguments of a setter's call, by position if any and by name, or why they cannot be read. -/
abbrev Given := Except Error (Option Value × Value)

/-- A command without a callback. A refused step was found wrong in what comes after the references
that it mentions. -/
inductive Step where
  | register (r : Registration)
  | registerAgain (ref : Ref)
  | assignParents (name parents : Value)
  | entity (name : Value)
  | graph
  | require (ref : Ref)
  | contains (ref : Ref)
  | role (context : Ref) (name : Value)
  | compareRoles (a b : Ref × Value)
  | declare (r : Policy.Request)
  | callKept (label : Value) (given : Given)
  | build
  | clear
  | hold (label : Value)
  | compiled (held : Option Value)
  | allowanceFor (subject action : Value)
  | cell (context role subject subjectRole : Value)
  | declared (context role subject subjectRole : Value)
  | adaptMemberships (adapter? : Option Adapter)
  | adaptSubjects (adapter? : Option Adapter)
  | isAllowed (memberships action subject : Value)
  | explain (memberships action subject : Value)
  | actorPolicies (memberships subject : Value)
  | resolve (memberships subject : Value)
  | paths (name : Value)
  | relationships (names : Value)
  | hierarchy
  | refused (mentioned : List Ref) (error : Error)
  deriving Repr

mutual

/-- A command: a step, or a step that runs a callback for every subject. -/
inductive Command where
  | step (s : Step)
  | configure (rules : List Rule)
  | forEachSubject (rules : List Rule)

/-- A rule of a callback: a task, for the subject that a value names or for all. -/
inductive Rule where
  | mk (subject? : Option Value) (task : Task)

/-- What a rule does. A setter is called, or kept under a label. What a body fails with may be caught,
and then the callback goes on with a handler. -/
inductive Task where
  | set (context role : Value) (form : Policy.Form) (keep? : Option Value) (given : Given)
  | fail (error : Error)
  | probe
  | run (command : Command)
  | attempt (caught : Error → Bool) (body handler : List Rule)

end

/-- What a command answers. -/
inductive Reply where
  | done
  | shown (text : String)
  | shownIfAny (text? : Option String)
  | flag (b : Bool)
  | comparison (equal : Bool) (distinct : Nat) (equalsName : Bool)
  | names (names : List String)
  | entity (e? : Option Entity)
  | graph (g : Graph) (engine : String)
  | snapshot (s : Snapshot)
  | keys (keys : List String)
  | cell (cell? : Option Cell)
  | actions (actions : Actions)
  | resolution (r? : Option Evaluation.Resolution)
  | decision (d : Evaluation.Decision)
  | paths (paths : List (List String))
  | relationships (relationships : List Relationship)
  | view (view : View)

/-- What a callback sees for a subject: the contexts, each with the names of its roles. -/
structure Sight where
  subject : Name
  contexts : List (Name × List Value)
  deriving Repr

/-- What a callback sees, as it is shown. -/
def Sight.display (sight : Sight) : String :=
  let contexts := Name.listLiteral (sight.contexts.map (·.1))
  s!"PolicyConfiguration(subject={sight.subject.literal}, contexts={contexts})"

/-- The subjects that a callback was called for, and what its probes saw. -/
structure Trace where
  visited : List String := []
  sights : List Sight := []
  deriving Repr

end AccessMatrix.Session
