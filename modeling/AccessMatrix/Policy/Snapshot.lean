import AccessMatrix.Policy.Round

/-!
# Compiled snapshots

Compiling a round against a graph makes the dense matrix of cells and the inverted index that
queries read: for every action on a subject, the keys of the cells that allow it. A context has no
cell over an entity that stands above it. Cells hold texts; the keys of the index show the labels of
entities, roles and actions.
-/

namespace AccessMatrix.Policy

/-- The key of a cell. -/
def Cell.key (cell : Cell) : String :=
  accessKey cell.context (some cell.role) cell.subject cell.subjectRole

/-- The result of one compilation. -/
structure Snapshot where
  actions : List Name := []
  cells : List Cell := []
  allowance : Table String (List String) := []
  defined : Table Slot Actions := []
  deriving DecidableEq, Repr

namespace Snapshot

/-- The slots of one role of a context over a subject: none over an entity above the context, and
only its own role over the context itself. -/
def slotsOver (context : Entity) (role : Name) (subject : Entity) : List LabelledSlot :=
  if context.name ∈ subject.descendants then []
  else
    let subjectRoles := (subject.roleLabels.map some ++ [none]).filter fun subjectRole =>
      context.name ≠ subject.name || Option.map Name.text subjectRole = some role.text
    subjectRoles.map fun subjectRole => ⟨context.label, role, subject.label, subjectRole⟩

/-- The slots of the matrix in their order. -/
def slots (g : Graph) : List LabelledSlot :=
  g.contexts.flatMap fun context =>
    context.roleLabels.flatMap fun role =>
      g.entities.flatMap fun subject => slotsOver context role subject

/-- Whether the declared actions of a slot allow an action. -/
def allows (defined : Table Slot Actions) (slot : Slot) (action : String) : Bool :=
  (((defined.get? slot).getD []).get? action).getD false

/-- The cell of a slot: every action, allowed if the slot's declared actions allow it. -/
def cellOf (actions : List Name) (defined : Table Slot Actions) (slot : Slot) : Cell where
  context := slot.context
  role := slot.role
  subject := slot.subject
  subjectRole := slot.subjectRole
  actions := actions.map fun action => (action.text, allows defined slot action.text)

/-- What a slot grants: the keys of its allowed actions, each with the key of its cell. -/
def grantsOf (actions : List Name) (defined : Table Slot Actions) (place : LabelledSlot) :
    List (String × String) :=
  (actions.filter fun action => allows defined place.slot action.text).map fun action =>
    (actionKey place.subject.display action.display, place.key)

/-- Add a cell's key under an action key. -/
def allow (allowance : Table String (List String)) (grant : String × String) :
    Table String (List String) :=
  let keys := (allowance.get? grant.1).getD []
  if grant.2 ∈ keys then allowance else allowance.put grant.1 (keys ++ [grant.2])

/-- The index of the cells by what they allow. -/
def index (grants : List (String × String)) : Table String (List String) := grants.foldl allow []

/-- Compile a round against a graph. -/
def compile (g : Graph) (round : Round) : Snapshot :=
  let defined := round.resolve g
  let places := slots g
  { actions := round.actions
    cells := places.map fun place => cellOf round.actions defined place.slot
    allowance := index (places.flatMap (grantsOf round.actions defined))
    defined }

/-- The keys of the cells that allow what an action key names. -/
def keysFor (s : Snapshot) (key : String) : List String := (s.allowance.get? key).getD []

/-- The keys of the cells that allow an action on a subject. -/
def allowanceFor (s : Snapshot) (subject action : String) : List String :=
  s.keysFor (actionKey subject action)

/-- The cell found under a key; of cells with equal keys the last is found. -/
def cellAt (s : Snapshot) (key : String) : Option Cell :=
  (s.cells.filter fun cell => cell.key = key).getLast?

/-- The declared actions of a slot, none if nothing reaches it. -/
def declared (s : Snapshot) (slot : Slot) : Actions := (s.defined.get? slot).getD []

/-- A snapshot as it is shown. -/
def display (s : Snapshot) : String :=
  let actions := Name.listLiteral s.actions
  let cells := s.cells.length
  s!"CompiledPolicies(actions={actions}, access_policies={cells}, allowance={s.allowance.length})"

/-- The record that a publication makes. -/
def message (s : Snapshot) : String :=
  let cells := s.cells.length
  let actions := s.actions.length
  s!"Compiled {cells} access policies over {actions} actions into {s.allowance.length} allowance keys"

end Snapshot

end AccessMatrix.Policy
