import AccessMatrix.Table
import AccessMatrix.Value.Item
import AccessMatrix.Value.Name

/-!
# Views of contexts

A configuration callback sees a context through a view of its roles. The view stores two members, the
context and its setters by role. A callback can put values in their place or erase them; what the
view answers from then on rests on what it stores at the moment.
-/

namespace AccessMatrix.Policy

/-- What a member that a view stores holds: what the view was made with, a value in its place, or
nothing. -/
inductive Stored where
  | initial
  | replaced (v : Value)
  | absent
  deriving Repr

/-- A view of a context: the context's name, how the context is shown, its roles, and what the two
members hold. -/
structure ContextView where
  context : Name
  shown : String
  roles : List Name
  storedContext : Stored := .initial
  storedSetters : Stored := .initial
  deriving Repr

/-- What a view has under a name: a role of the context, or a value. -/
inductive Reached where
  | role (label : Name)
  | value (v : Value)
  deriving Repr

namespace ContextView

/-- What kind of thing a view is. -/
def kind : String := "ContextPolicySetters"

/-- The name of the member that holds the context. -/
def contextMember : String := "context"

/-- The name of the member that holds the setters. -/
def settersMember : String := "_setters"

/-- The role of the context that a value names. -/
def role? (view : ContextView) (value : Value) : Option Name := Name.among? view.roles value

/-- The name of what stands in place of the context. Of all values only the members of enumerations
have one. -/
def nameOf (v : Value) : Except Misuse String :=
  match v.memberName? with
  | some name => .ok name
  | none => .error (.noMember v.typeName "name")

/-- The name of the context as refusals give it. Where the context is erased it is looked for among
the setters, and where it is not there either, the search for it never ends. -/
def contextName (view : ContextView) : Except Misuse String :=
  match view.storedContext, view.storedSetters with
  | .initial, _ => .ok view.context.display
  | .replaced v, _ => nameOf v
  | .absent, .absent => .error .endless
  | .absent, .initial =>
    if (view.role? (.text contextMember)).isSome then .error (.noMember "function" "name")
    else .error .endless
  | .absent, .replaced v =>
    match v.item (.text contextMember) with
    | .ok found => nameOf found
    | .error (.noKey _) => .error .endless
    | .error misuse => .error misuse

/-- Refuse a member that the view does not have. -/
def refuse {α : Type} (view : ContextView) (key : Value) : Except Misuse α :=
  view.contextName.bind fun name => .error (.noRoleMember name key.display)

/-- What the view has under a key as an item. -/
def item (view : ContextView) (key : Value) : Except Misuse Reached :=
  match view.storedSetters with
  | .initial => do
    key.checkKey
    match view.role? key with
    | some label => return .role label
    | none => throw (.noKey key)
  | .replaced v => (v.item key).map .value
  | .absent => view.refuse (.text settersMember)

/-- What the view has as a member under a key that no member of its own has. -/
def member (view : ContextView) (key : Value) : Except Misuse Reached :=
  match view.storedSetters with
  | .absent => view.refuse key
  | _ =>
    match view.item key with
    | .error (.noKey _) => view.refuse key
    | result => result

/-- Look for a key, which need not be there. -/
def seek (view : ContextView) (key : Value) : Except Misuse Unit :=
  match view.item key with
  | .error (.noKey _) => .ok ()
  | result => result.map fun _ => ()

/-- The number of roles that the view has. -/
def length (view : ContextView) : Except Misuse Nat :=
  match view.storedSetters with
  | .initial => .ok view.roles.length
  | .replaced v => v.length
  | .absent => view.refuse (.text settersMember)

/-- The names of the roles that the view has, in their order. -/
def keys (view : ContextView) : Except Misuse (List Value) :=
  match view.storedSetters with
  | .initial => .ok (view.roles.map Name.toValue)
  | .replaced v => v.iterate
  | .absent => view.refuse (.text settersMember)

/-- Compare the view with a value: with a mapping item by item, and with nothing else. -/
def compare (view : ContextView) (other : Value) : Except Misuse Unit :=
  match other with
  | .mapping _ => do for key in ← view.keys do let _ ← view.item key
  | _ => .ok ()

/-- What the view stores under the name of a member, for the two that it stores. -/
def stored? (view : ContextView) (name : String) : Option Stored :=
  if name = contextMember then some view.storedContext
  else if name = settersMember then some view.storedSetters
  else none

/-- Store a context and setters. -/
def store (view : ContextView) (context setters : Value) : ContextView :=
  { view with storedContext := .replaced context, storedSetters := .replaced setters }

/-- Erase a member by its name. The two that the view stores can be erased, once or both together. -/
def erase (view : ContextView) (name : String) : Except Misuse ContextView :=
  match name, view.stored? name with
  | "__dict__", _ => .ok { view with storedContext := .absent, storedSetters := .absent }
  | "__class__", _ => .error (.undeletableMember name)
  | "__weakref__", _ => .error (.unwritableMember name kind)
  | _, none | _, some .absent => .error (.noMember kind name)
  | _, some _ =>
    if name = contextMember then .ok { view with storedContext := .absent }
    else .ok { view with storedSetters := .absent }

end ContextView

/-- The identity of a view: how many subjects were visited before its own, and its context. -/
structure ViewId where
  visit : Nat
  context : String
  deriving DecidableEq, Repr

/-- The views that were altered. -/
abbrev Views := Table ViewId ContextView

end AccessMatrix.Policy
