import AccessMatrix.Graph.Register
import AccessMatrix.Policy.Actions
import AccessMatrix.Policy.Slot

/-!
# Declaration rounds

A round collects declarations. They fall in three tiers: explicit cells, which a context declares on
itself or which name the role on the subject; broad declarations, which fill every role of the
subject; and self-policies, which a context's declaration on itself makes for its ancestors. A lower
tier fills only slots that no higher tier has set.

A repeated declaration is ignored, except that a context's declaration on itself replaces the
explicit cell; the self-policy that it makes stays the first one.
-/

namespace AccessMatrix.Policy

/-- Which roles on the subject a declaration covers: all of them, or one role or none. -/
inductive Scope where
  | every
  | only (role : Option Name)
  deriving DecidableEq, Repr

/-- A scope as it is shown. -/
def Scope.display : Scope → String
  | .every => "ANY_ROLE"
  | .only role => (role.map Name.literal).getD "None"

/-- A declaration: a role of a context is allowed or refused actions on a subject. -/
structure Declaration where
  context : Name
  role : Name
  subject : Name
  scope : Scope := .every
  actions : Declared := []
  deriving DecidableEq, Repr

/-- The declarations of one round by tier. -/
structure Round where
  actions : List Name := []
  explicit : Table Slot Actions := []
  broad : Table (String × String × String) Actions := []
  selfPolicies : Table (String × String) Actions := []
  deriving DecidableEq, Repr

/-- A declaration that came after another on the same slot. -/
structure Redeclaration where
  parts : List String
  replaces : Bool
  deriving DecidableEq, Repr

/-- The warning that a redeclaration makes. -/
def Redeclaration.message (r : Redeclaration) : String :=
  let key := Value.joined "-" r.parts
  let outcome :=
    if r.replaces then "the later declaration replaces the earlier one"
    else "the later declaration is ignored"
  s!"Access policy {key} redeclared; {outcome}"

namespace Round

/-- Note the actions of a declaration, those already known staying as they are. -/
def noteActions (known : List Name) (declared : Declared) : List Name :=
  (known ++ declared.map (·.1)).eraseDupsBy fun a b => a.text = b.text

/-- Record an explicit cell that the first declaration keeps. -/
def addExplicit (round : Round) (place : LabelledSlot) (actions : Actions) :
    Round × Option Redeclaration :=
  if round.explicit.has place.slot then (round, some ⟨place.parts, false⟩)
  else ({ round with explicit := round.explicit.put place.slot actions }, none)

/-- Record a context's declaration on itself: the last one sets the cell, the first one the
self-policy. -/
def addSelf (round : Round) (context role : Name) (actions : Actions) :
    Round × Option Redeclaration :=
  let place : LabelledSlot := ⟨context, role, context, some role⟩
  let warning := if round.explicit.has place.slot then some ⟨place.parts, true⟩ else none
  ({ round with
      explicit := round.explicit.put place.slot actions
      selfPolicies := round.selfPolicies.fill (context.text, role.text) actions }, warning)

/-- Record a broad declaration, which the first one keeps. -/
def addBroad (round : Round) (context role subject : Name) (actions : Actions) :
    Round × Option Redeclaration :=
  let key := (context.text, role.text, subject.text)
  if round.broad.has key then
    (round, some ⟨[context.display, role.display, subject.display], false⟩)
  else ({ round with broad := round.broad.put key actions }, none)

/-- Record a declaration in its tier. -/
def add (round : Round) (d : Declaration) : Round × Option Redeclaration :=
  let round := { round with actions := noteActions round.actions d.actions }
  let actions := d.actions.actions
  match d.scope with
  | .every =>
    if d.context.text = d.subject.text then round.addSelf d.context d.role actions
    else round.addBroad d.context d.role d.subject actions
  | .only subjectRole => round.addExplicit ⟨d.context, d.role, d.subject, subjectRole⟩ actions

/-- The roles on a subject and the case without one, in that order. -/
def scopesOf (g : Graph) (subject : String) : List (Option String) :=
  (g.rolesOf subject).map some ++ [none]

/-- The slots that a broad declaration fills. -/
def broadSlots (g : Graph) (key : String × String × String) : List Slot :=
  (scopesOf g key.2.2).map fun subjectRole => ⟨key.1, key.2.1, key.2.2, subjectRole⟩

/-- The contexts above an entity, nearest first. -/
def contextsAbove (g : Graph) (name : String) : List Entity :=
  g.contextsAmong (((g.find? name).map Entity.nearestFirst).getD [])

/-- The slots that a self-policy fills: its role on its context for every role of every context
above, and the case without a role for its own. -/
def selfSlots (g : Graph) (key : String × String) : List Slot :=
  (contextsAbove g key.1).flatMap (fun above =>
    above.roles.map fun role => ⟨above.name, role, key.1, some key.2⟩) ++
    [⟨key.1, key.2, key.1, none⟩]

/-- Fill several slots with the same actions. -/
def fillSlots (defined : Table Slot Actions) (slots : List Slot) (actions : Actions) :
    Table Slot Actions :=
  slots.foldl (fun defined slot => defined.fill slot actions) defined

/-- The actions of every slot that some declaration reaches, tier by tier. -/
def resolve (g : Graph) (round : Round) : Table Slot Actions :=
  let broad := round.broad.foldl
    (fun defined entry => fillSlots defined (broadSlots g entry.1) entry.2) round.explicit
  round.selfPolicies.foldl
    (fun defined entry => fillSlots defined (selfSlots g entry.1) entry.2) broad

end Round

end AccessMatrix.Policy
