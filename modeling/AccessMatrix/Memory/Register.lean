import AccessMatrix.Graph.Register
import AccessMatrix.Memory.Basic

/-!
# Registration in memory

A graph takes an entity in: one that is being made, or one that was made before, here or for another
graph. What a registration writes before it fails stays written. It resolves the parents, checks the
roles, writes the parents, and finds what is above them; all this concerns the entity alone. Only then
does the graph hold the entity, and the entities above are told of it one by one.
-/

namespace AccessMatrix

/-- What an entity is made from. Roles are read for contexts only, and parents are given one by one
or as a value to be gone through. -/
structure Making where
  kind : Kind
  name : Value
  roles : Value := .list []
  parents : List Item ⊕ Value := .inl []
  deriving Repr

/-- The role names that a context is given. -/
def Making.givenRoles (r : Making) : Except Error (Option (List Value)) :=
  if r.kind = .context then (Error.ofMisuse r.roles.iterate).map some else .ok none

/-- The parents one by one. -/
def Making.items (r : Making) : Except Error (List Item) :=
  match r.parents with
  | .inl items => .ok items
  | .inr v => (Error.ofMisuse v.iterate).map fun items => items.map Item.value

/-- What is handed to a graph: something to be made, or something that is there to be registered. -/
inductive Attempt where
  | making (r : Making)
  | again (item : Item)
  deriving Repr

namespace Memory

/-- The entity of a graph that is meant by a parent of an entity with the given name. -/
def resolve (m : Memory) (graph : Nat) (child : Name) : Item → Except Error Nat
  | .entity id =>
    if m.find? graph (m.object id).name = some id then .ok id
    else .error (.graph (.unknownParent child (m.object id).label.toValue))
  | .value v =>
    match v.asText?.bind (m.find? graph) with
    | some id => .ok id
    | none => .error (.graph (.unknownParent child v))

/-- The parents of an entity as a graph knows them, each once; the name of the entity must not be
taken there. -/
def accept (m : Memory) (graph id : Nat) : Except Error (List Nat) :=
  let o := m.object id
  if (m.find? graph o.name).isSome then .error (.graph (.nameTaken o.label))
  else (o.parents.mapM (m.resolve graph o.label)).map List.eraseDups

/-- Check the roles that a context was given and let it have them. -/
def validate (m : Memory) (id : Nat) : Except Error Memory :=
  let o := m.object id
  if o.isContext then
    match o.given? with
    | none => .error (.misuse (.noMember o.kind.name "_role_names"))
    | some given =>
      (Graph.checkRoles o.label [] given).map fun roleLabels =>
        m.write id ({ · with roleLabels, given? := none })
  else .ok m

/-- Why a value is no entity whose parents could be gone through. -/
def notEntity (v : Value) : Error :=
  match v.unkeyable? with
  | some kind => .misuse (.notKeyable kind)
  | none => .misuse (.noMember v.typeName "parents")

/-- What a cycle is reported as. -/
def cyclic (m : Memory) (cycle : Graph.Cycle Nat) : Error :=
  .graph (.cyclic (m.object cycle.name).label (cycle.path.map fun id => (m.object id).name))

/-- Visit everything above an entity. -/
def walk (m : Memory) : Nat → List Nat → List Nat → Nat → Except Error (List Nat)
  | 0, _, visited, _ => .ok visited
  | depth + 1, path, visited, id =>
    (m.object id).listed.foldlM (fun visited parent =>
      match parent with
      | .value v => .error (notEntity v)
      | .entity parent =>
        if parent ∈ path then .error (m.cyclic ⟨parent, path.reverse⟩)
        else if parent ∈ visited then .ok visited
        else m.walk depth (parent :: path) (parent :: visited) parent) visited

/-- The entities reached from the starts, the starts included, by walks of bounded depth. -/
def closure (m : Memory) (depth : Nat) (starts : List Nat) : Except Error (List Nat) :=
  starts.foldlM (fun visited start =>
    if start ∈ visited then .ok visited
    else m.walk depth [start] (start :: visited) start) []

/-- Whether an ancestor is a parent or required by it, for every parent. -/
def isRequired (m : Memory) (parents : List Nat) (ancestor : Nat) : Bool :=
  parents.all fun parent => parent = ancestor || (m.object parent).required.contains ancestor

/-- The order of ancestors: higher levels first, and names in rising order within a level. -/
def isNearer (m : Memory) (a b : Nat) : Bool :=
  (m.object b).level < (m.object a).level ||
    ((m.object a).level = (m.object b).level && (m.object a).name ≤ (m.object b).name)

/-- Write what follows from the parents and ancestors of an entity. -/
def settle (m : Memory) (id : Nat) (parents ancestors : List Nat) : Memory :=
  m.write id fun o => { o with
    ancestors
    required := ancestors.filter (m.isRequired parents)
    level := 1 + (parents.map fun parent => (m.object parent).level).foldl max 0
    nearestFirst := ancestors.mergeSort m.isNearer }

/-- The contexts that a visit of several parents meets, and the failure that ends it, if one does. -/
def meet (visit : Nat → List Nat × Option Error) : List Item → List Nat × Option Error
  | [] => ([], none)
  | .value v :: _ => ([], some (.misuse (.noMember v.typeName "_add_controlled")))
  | .entity parent :: rest =>
    match visit parent with
    | (met, some error) => (met, some error)
    | (met, none) =>
      let (more, error?) := meet visit rest
      (met ++ more, error?)

/-- The contexts that gate a branch, in the order in which they are met: a context itself, and for any
other entity those of its parents. -/
def gates (m : Memory) : Nat → Nat → List Nat × Option Error
  | 0, _ => ([], none)
  | depth + 1, id =>
    let o := m.object id
    if o.isContext then ([id], none) else meet (m.gates depth) o.parents

/-- Tell a parent of a new entity, what is above the parent, and the contexts that gate its branch. -/
def tell (m : Memory) (depth new parent : Nat) : Except Error Unit × Memory :=
  let m := m.write parent fun o =>
    { o with children := withPlace o.children new, descendants := withPlace o.descendants new }
  let m := m.writeEach (m.object parent).ancestors fun o =>
    { o with descendants := withPlace o.descendants new }
  let (met, error?) := m.gates depth parent
  let m := m.writeEach met fun o => { o with controllers := withPlace o.controllers new }
  match error? with
  | some error => (.error error, m)
  | none => (.ok (), m.write new fun o => { o with owners := met.foldl withPlace o.owners })

/-- Tell the parents of a new entity, up to the first that fails. -/
def tellAll (m : Memory) (depth new : Nat) : List Nat → Except Error Unit × Memory
  | [] => (.ok (), m)
  | parent :: rest =>
    match m.tell depth new parent with
    | (.error error, m) => (.error error, m)
    | (.ok (), m) => m.tellAll depth new rest

/-- Register an entity in a graph, by ways up the parents of bounded length. -/
def registerWithin (m : Memory) (depth graph id : Nat) : Except Error Unit × Memory :=
  match m.accept graph id with
  | .error error => (.error error, m)
  | .ok parents =>
    match m.validate id with
    | .error error => (.error error, m)
    | .ok m =>
      let m := m.assignParents id (parents.map .entity)
      match m.closure depth parents with
      | .error error => (.error error, m)
      | .ok ancestors => ((m.settle id parents ancestors).enter graph id).tellAll depth id parents

/-- The object that is made, if there can be one. -/
def create (r : Making) : Except Error Object := do
  let given? ← r.givenRoles
  let some label := r.name.asName? | throw (.graph (.unnamed r.name))
  let parents ← r.items
  return { label, kind := r.kind, given?, parents }

/-- Why a value cannot be registered in a graph. -/
def refuseValue (m : Memory) (graph : Nat) (v : Value) : Error :=
  match v.memberName? with
  | some name =>
    if (m.find? graph name).isSome then .graph (.nameTaken (.plain name))
    else .misuse (.noMember v.typeName "parents")
  | none => .misuse (.noMember v.typeName "name")

/-- The entity that an attempt is about: the next one to be made, or the one that is there. -/
def subject (m : Memory) : Attempt → Nat
  | .again (.entity id) => id
  | _ => m.size

/-- Make an attempt at a registration in a graph, by ways up the parents of bounded length. -/
def attemptWithin (m : Memory) (depth graph : Nat) : Attempt → Except Error Unit × Memory
  | .making r =>
    match create r with
    | .error error => (.error error, m)
    | .ok o => (m.make o).registerWithin depth graph m.size
  | .again (.entity id) => m.registerWithin depth graph id
  | .again (.value v) => (.error (m.refuseValue graph v), m)

/-- Make an attempt at a registration in a graph. -/
def attempt (m : Memory) (graph : Nat) (a : Attempt) : Except Error Unit × Memory :=
  m.attemptWithin (m.size + 1) graph a

/-- What happens to entities and graphs. -/
inductive Event where
  | attempt (graph : Nat) (a : Attempt)
  | assignParents (id : Nat) (parents : List Item)
  | rename (id : Nat) (label : Name)
  deriving Repr

/-- The entities that an event is about. -/
def Event.ids : Event → List Nat
  | .attempt _ (.making r) => (r.parents.elim id fun _ => []).filterMap Item.id?
  | .attempt _ (.again item) => [item].filterMap Item.id?
  | .assignParents id parents => id :: parents.filterMap Item.id?
  | .rename id _ => [id]

/-- The memory after an event. An entity that no graph holds is out of reach, because it was never
handed to anyone: what is about such an entity does not happen. -/
def after (m : Memory) (event : Event) : Memory :=
  if event.ids.all m.knows then
    match event with
    | .attempt graph a => (m.attempt graph a).2
    | .assignParents id parents => m.assignParents id parents
    | .rename id label => m.rename id label
  else m

/-- Whether an event is an attempt at a registration. -/
def Event.isAttempt : Event → Bool
  | .attempt _ _ => true
  | _ => false

/-- Whether an event gives no entity another name and puts no null among its parents. -/
def Event.isOrdinary : Event → Bool
  | .attempt _ _ => true
  | .assignParents _ parents => parents.all fun parent => !parent.isNull
  | .rename _ _ => false

/-- The memory after several events. -/
def afterAll (m : Memory) (events : List Event) : Memory := events.foldl after m

end Memory

end AccessMatrix
