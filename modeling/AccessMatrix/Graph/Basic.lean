import AccessMatrix.Value.Name

/-!
# Entity graphs

A graph is a registry of named entities. Contexts carry roles; products and plain entities carry
none. An entity may have several parents. What registration derives from the parents is stored with
each entity, as names, and stays as it was registered. The names of entities and roles are texts; an
entity is labelled with its name and its roles as they were given, which is how they are shown.
-/

namespace AccessMatrix

/-- The kinds of entities. -/
inductive Kind where
  | context | product | plain
  deriving DecidableEq, Repr

/-- The name of a kind. -/
def Kind.name : Kind → String
  | .context => "Context"
  | .product => "Product"
  | .plain => "Entity"

/-- A registered entity. Parents stand in declaration order and `nearestFirst` lists the ancestors
by falling level; the other lists of names are read as sets. -/
structure Entity where
  label : Name
  kind : Kind
  roleLabels : List Name := []
  parents : List String := []
  children : List String := []
  ancestors : List String := []
  descendants : List String := []
  required : List String := []
  owners : List String := []
  controllers : List String := []
  level : Nat := 1
  nearestFirst : List String := []
  deriving DecidableEq, Repr

namespace Entity

/-- The name of an entity. -/
def name (e : Entity) : String := e.label.text

/-- The roles of an entity. -/
def roles (e : Entity) : List String := e.roleLabels.map Name.text

/-- Whether an entity is a context. -/
def isContext (e : Entity) : Bool := e.kind = .context

/-- An entity as it is shown. -/
def display (e : Entity) : String :=
  s!"{e.kind.name}(name={e.label.literal}, level={e.level})"

end Entity

/-- A registry of entities, in the order of their registration. -/
structure Graph where
  entities : List Entity := []
  deriving DecidableEq, Repr

namespace Graph

/-- The entity registered under a name. -/
def find? (g : Graph) (name : String) : Option Entity := g.entities.find? fun e => e.name = name

/-- Whether a name is registered. -/
def has (g : Graph) (name : String) : Bool := g.entities.any fun e => e.name = name

/-- The number of registered entities. -/
def size (g : Graph) : Nat := g.entities.length

/-- The registered names. -/
def names (g : Graph) : List String := g.entities.map Entity.name

/-- The registered contexts. -/
def contexts (g : Graph) : List Entity := g.entities.filter Entity.isContext

/-- The registered products. -/
def products (g : Graph) : List Entity := g.entities.filter fun e => e.kind = .product

/-- The parents of a registered entity; an unregistered name has none. -/
def parentsOf (g : Graph) (name : String) : List String :=
  ((g.find? name).map Entity.parents).getD []

/-- The roles of a registered entity; an unregistered name has none. -/
def rolesOf (g : Graph) (name : String) : List String :=
  ((g.find? name).map Entity.roles).getD []

/-- The label of a registered entity; an unregistered name is its own. -/
def labelOf (g : Graph) (name : String) : Name :=
  ((g.find? name).map Entity.label).getD (.plain name)

/-- The labels of the roles of a registered entity; an unregistered name has none. -/
def roleLabelsOf (g : Graph) (name : String) : List Name :=
  ((g.find? name).map Entity.roleLabels).getD []

/-- The registered contexts among some names, in the order of the names. -/
def contextsAmong (g : Graph) (names : List String) : List Entity :=
  (names.filterMap g.find?).filter Entity.isContext

/-- A graph as it is shown. -/
def display (g : Graph) : String :=
  let names := Name.listLiteral (g.entities.map Entity.label)
  s!"EntityGraph(entities={names})"

/-- Reassign the parents of an entity and derive nothing anew. -/
def assignParents (g : Graph) (name : String) (parents : List String) : Graph where
  entities := g.entities.map fun e => if e.name = name then { e with parents := parents } else e

end Graph

/-- Names in rising order of their code points. -/
def sortedNames (names : List String) : List String :=
  names.mergeSort fun a b => decide (a ≤ b)

end AccessMatrix
