import AccessMatrix.Policy.Compiler
import AccessMatrix.Policy.ViewMember

/-!
# Setters

A configuration callback sees, for one subject, the contexts and for each of them its roles. A role
is reached as an item or as a member, and answers with a setter that declares actions of that role
on the subject. A member that the view of a context has for itself hides a role of the same name.
-/

namespace AccessMatrix.Policy

/-- What a role of a context's view answers with: the setter of a policy in a round, a member of the
view itself, or a plain value. A member goes with its view as the view was made. -/
inductive Setter where
  | policy (round : RoundId) (context role subject : Name)
  | member (id : ViewId) (made : ContextView) (m : ViewMember)
  | value (kind title : String)
  deriving Repr

/-- How a callback reaches a setter. -/
inductive Form where
  | item | member
  deriving DecidableEq, Repr

/-- Where a callback reaches setters: a view as it was made and as it is, with the round and the
subject that policies are declared for. -/
structure Reach where
  id : ViewId
  made : ContextView
  view : ContextView
  round : RoundId
  subject : Name
  deriving Repr

namespace Reach

/-- The setter of what a view has under a name. -/
def setter (reach : Reach) : Reached → Setter
  | .role label => .policy reach.round reach.made.context label reach.subject
  | .value v => .value v.typeName v.display

/-- How the values of a view's own members are shown together. -/
def storedTitle (view : ContextView) : String :=
  let entry (name : String) (stored : Stored) (asMade : String) : List String :=
    match stored with
    | .initial => [Text.quote name ++ ": " ++ asMade]
    | .replaced v => [Text.quote name ++ ": " ++ v.literal]
    | .absent => []
  "\x7b" ++ Value.joined ", " (entry ContextView.contextMember view.storedContext view.shown ++
    entry ContextView.settersMember view.storedSetters "\x7b\x7d") ++ "\x7d"

/-- The setter that a member of the view is. -/
def ofMember (reach : Reach) (m : ViewMember) : Setter :=
  match m.form with
  | .value kind => .value kind m.title
  | .stored => .value "dict" (storedTitle reach.view)
  | _ => .member reach.id reach.made m

/-- The setter under the name of a member. -/
def byMember (reach : Reach) (name : String) (role : Value) : Except Misuse Setter :=
  match reach.view.stored? name, ViewMember.named.lookup name with
  | some (.replaced v), _ => .ok (.value v.typeName v.display)
  | some .initial, _ =>
    .ok (if name = ContextView.contextMember then .value "Context" reach.view.shown
      else .value "dict" "\x7b\x7d")
  | some .absent, _ | none, none => (reach.view.member role).map reach.setter
  | none, some m => .ok (reach.ofMember m)

/-- The setter that a callback reaches in a form under a role. -/
def find (reach : Reach) (form : Form) (role : Value) : Except Misuse Setter :=
  match form with
  | .item => (reach.view.item role).map reach.setter
  | .member => (ViewUse.memberName role).bind fun name => reach.byMember name role

end Reach

namespace Setter

/-- What the setter of a policy is called where its arguments by name are no mapping. -/
def title : String :=
  ViewMember.titleOf (ViewMember.viewModule ++ "PolicyCompiler._setter.<locals>.set_policy")

/-- The declaration that a call of a policy setter makes. -/
def declaration (context role subject : Name) (given : Option Value) (named : Value) :
    Except Error Declaration := do
  let named ← Error.ofMisuse do namedArguments (← namedEntries title named)
  let entries ← Error.ofMisuse (mergedEntries (given.getD .null) named)
  let actions ← (checkEntries entries).mapError Error.policy
  return { context, role, subject, actions }

/-- What a call of a setter leaves: the compiler, the altered views, and a warning. -/
structure Outcome where
  compiler : Compiler
  views : Views
  warning? : Option Redeclaration := none

/-- Call a setter. -/
def call (setter : Setter) (c : Compiler) (views : Views) (given : Option Value) (named : Value) :
    Except Error Outcome :=
  match setter with
  | .policy round context role subject =>
    (declaration context role subject given named).map fun d =>
      let (compiler, warning?) := c.record round d
      { compiler, views, warning? }
  | .member id made m =>
    (Error.ofMisuse (m.call ((views.get? id).getD made) given named)).map fun altered? =>
      { compiler := c, views := (altered?.map (views.put id)).getD views }
  | .value kind title =>
    Error.ofMisuse do
      let _ ← namedEntries title named
      throw (.call (.notCallable kind))

end Setter

end AccessMatrix.Policy
