import AccessMatrix.Graph.Basic

/-!
# Entities in memory

Entities are objects in a memory that graphs share. A graph is a registry: it holds entities under
the names that they had when they were registered. So an entity may stand in no graph, where its
registration failed, and in several, where it was registered again elsewhere. Entities refer to each
other by their places in the memory, whatever their names are and become.
-/

namespace AccessMatrix

/-- What is handed over where an entity is expected: an entity by its place, or any other value. -/
inductive Item where
  | entity (id : Nat)
  | value (v : Value)
  deriving Repr

namespace Item

/-- The place of an entity. -/
def id? : Item → Option Nat
  | entity id => some id
  | value _ => none

/-- Whether what is handed over is null. -/
def isNull : Item → Bool
  | value .null => true
  | _ => false

end Item

/-- An entity as an object. A context keeps the role names that it was given until they have been
checked. The lists of places but `nearestFirst` are read as sets. -/
structure Object where
  label : Name
  kind : Kind
  given? : Option (List Value) := none
  roleLabels : List Name := []
  parents : List Item := []
  children : List Nat := []
  ancestors : List Nat := []
  descendants : List Nat := []
  required : List Nat := []
  owners : List Nat := []
  controllers : List Nat := []
  level : Nat := 1
  nearestFirst : List Nat := []
  deriving Repr

namespace Object

/-- The name of an object. -/
def name (o : Object) : String := o.label.text

/-- Whether an object is a context. -/
def isContext (o : Object) : Bool := o.kind = .context

/-- What is gone through as the parents of an object: going through them ends at a null. -/
def listed (o : Object) : List Item := o.parents.takeWhile fun parent => !parent.isNull

/-- What stands where no object was made. -/
def blank : Object := { label := .plain "", kind := .plain }

end Object

/-- An entity that a graph holds under a name. -/
structure Entry where
  graph : Nat
  name : String
  id : Nat
  deriving DecidableEq, Repr

/-- A memory: the objects that were made, and what graphs hold, in the order of registration. -/
@[ext]
structure Memory where
  size : Nat := 0
  object : Nat → Object := fun _ => .blank
  entries : List Entry := []

/-- The places of a set with one more. -/
def withPlace (stored : List Nat) (id : Nat) : List Nat :=
  if id ∈ stored then stored else stored ++ [id]

namespace Memory

/-- The entity that a graph holds under a name. -/
def find? (m : Memory) (graph : Nat) (name : String) : Option Nat :=
  (m.entries.find? fun entry => entry.graph = graph ∧ entry.name = name).map Entry.id

/-- Whether a graph holds an entity. -/
def holds (m : Memory) (graph id : Nat) : Bool :=
  m.entries.any fun entry => entry.graph = graph && entry.id = id

/-- Whether some graph holds an entity. -/
def knows (m : Memory) (id : Nat) : Bool := m.entries.any fun entry => entry.id = id

/-- The parents of an entity, as far as they are gone through and are entities. -/
def parentIds (m : Memory) (id : Nat) : List Nat := (m.object id).listed.filterMap Item.id?

/-- Change an object. -/
def write (m : Memory) (id : Nat) (change : Object → Object) : Memory :=
  { m with object := fun other => if other = id then change (m.object other) else m.object other }

/-- Change several objects in the same way, one after the other. -/
def writeEach (m : Memory) (ids : List Nat) (change : Object → Object) : Memory :=
  ids.foldl (fun m id => m.write id change) m

/-- Put a new object into the memory. -/
def make (m : Memory) (o : Object) : Memory :=
  { m.write m.size (fun _ => o) with size := m.size + 1 }

/-- Put an entity last in a graph, under its name. -/
def enter (m : Memory) (graph id : Nat) : Memory :=
  { m with entries := m.entries ++ [⟨graph, (m.object id).name, id⟩] }

/-- Reassign the parents of an entity and derive nothing anew. -/
def assignParents (m : Memory) (id : Nat) (parents : List Item) : Memory :=
  m.write id ({ · with parents })

/-- Give an entity another name and leave it where graphs hold it. -/
def rename (m : Memory) (id : Nat) (label : Name) : Memory := m.write id ({ · with label })

end Memory

end AccessMatrix
