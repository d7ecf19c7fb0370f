import AccessMatrix.Graph.Closure
import AccessMatrix.Graph.Reference

/-!
# Registration

A new entity is checked in full before anything changes: its name, its parents, its roles, and that
no cycle lies above it. Then its relations are derived and it is linked into the entities above it.
-/

namespace AccessMatrix

/-- What is asked for when an entity is registered. Roles are read for contexts only. -/
structure Registration where
  kind : Kind
  name : Value
  roles : Value := .list []
  parents : Refs := .each []
  deriving Repr

/-- A new entity whose parts have been checked one by one. -/
structure Draft where
  kind : Kind
  label : Name
  roleLabels : List Name
  parents : List String
  deriving DecidableEq, Repr

namespace Graph

/-- The registered names of parents, each once. -/
def resolveParents (g : Graph) (name : Name) : List Ref → Except Error (List String)
  | [] => .ok []
  | ref :: rest =>
    match g.refersTo ref with
    | none => .error (.graph (.unknownParent name ref.label))
    | some parent => do
      let others ← g.resolveParents name rest
      return parent.name :: others.filter (· ≠ parent.name)

/-- Role names of a context, which are not empty and differ from those before them. -/
def checkRoles (context : Name) : List Name → List Value → Except Error (List Name)
  | seen, [] => .ok seen.reverse
  | seen, role :: rest =>
    match role.asName? with
    | none => .error (.graph (.unnamedRole context role))
    | some role =>
      if role.text ∈ seen.map Name.text then .error (.graph (.repeatedRole context role))
      else checkRoles context (role :: seen) rest

/-- Check the parts of a new entity. -/
def draft (g : Graph) (r : Registration) : Except Error Draft := do
  let roles ← if r.kind = .context then Error.ofMisuse r.roles.iterate else pure []
  let some label := r.name.asName? | throw (.graph (.unnamed r.name))
  let parents ← r.parents.toList
  if g.has label.text then throw (.graph (.nameTaken label))
  let parents ← g.resolveParents label parents
  let roleLabels ← checkRoles label [] roles
  return { kind := r.kind, label, roleLabels, parents }

/-- The contexts that gate a branch: a context itself, and for any other entity those of its
parents. -/
def gatesWithin (g : Graph) : Nat → String → List String
  | 0, _ => []
  | depth + 1, name =>
    match g.find? name with
    | none => []
    | some e => if e.isContext then [e.name] else e.parents.flatMap (g.gatesWithin depth)

/-- The contexts that gate an entity with the given parents. -/
def gates (g : Graph) (parents : List String) : List String :=
  (parents.flatMap (g.gatesWithin g.size)).eraseDups

/-- Whether an ancestor is a parent or required by it, for every parent. -/
def isRequired (parents : List Entity) (ancestor : String) : Bool :=
  parents.all fun parent => parent.name = ancestor || parent.required.contains ancestor

/-- The order of ancestors: higher levels first, and names in rising order within a level. -/
def isNearer (a b : Entity) : Bool := b.level < a.level || (a.level = b.level && a.name ≤ b.name)

/-- A new entity with everything derived from its parents and ancestors. -/
def derive (g : Graph) (d : Draft) (ancestors : List String) : Entity :=
  let parents := d.parents.filterMap g.find?
  { label := d.label
    kind := d.kind
    roleLabels := d.roleLabels
    parents := d.parents
    ancestors
    required := ancestors.filter (isRequired parents)
    owners := g.gates d.parents
    level := 1 + (parents.map Entity.level).foldl max 0
    nearestFirst := ((ancestors.filterMap g.find?).mergeSort isNearer).map Entity.name }

/-- The names above an entity as its parents know them. -/
def above (g : Graph) (parents : List String) : List String :=
  parents ++ (parents.filterMap g.find?).flatMap Entity.ancestors

/-- Put a new entity last and tell the entities above it. -/
def link (g : Graph) (new : Entity) : Graph where
  entities :=
    g.entities.map (fun e =>
      { e with
        children := if e.name ∈ new.parents then e.children ++ [new.name] else e.children
        descendants :=
          if e.name ∈ g.above new.parents then e.descendants ++ [new.name] else e.descendants
        controllers :=
          if e.name ∈ new.owners then e.controllers ++ [new.name] else e.controllers }) ++ [new]

/-- Register an entity, or refuse and change nothing. -/
def register (g : Graph) (r : Registration) : Except Error (Graph × Entity) := do
  let d ← g.draft r
  match g.closure d.parents with
  | .error cycle => throw (.graph (.cyclic (g.labelOf cycle.name) cycle.path))
  | .ok ancestors =>
    let e := g.derive d ancestors
    return (g.link e, e)

end Graph

end AccessMatrix
