import AccessMatrix.Graph.Paths
import AccessMatrix.Hierarchy.Forest
import AccessMatrix.Table

/-!
# Display hierarchy

The views of a graph that a display needs: the ancestry of every entity by name, the forest in which
an entity stands under each of its branches, and its rows.
-/

namespace AccessMatrix

/-- The ancestry of one entity by name: one way per branch and the ancestors on every branch, both
nearest first. -/
structure Relationship where
  name : String
  paths : List (List String) := []
  ancestors : List String := []
  deriving DecidableEq, Repr

/-- The forest in which each entity stands at the end of each of its branches, roots on top. -/
def Forest.ofRelationships (relationships : List Relationship) : Forest :=
  relationships.foldl (fun forest r =>
    let paths := if r.paths.isEmpty then [r.ancestors] else r.paths
    paths.foldl (fun forest path => forest.add (path.reverse ++ [r.name])) forest) .nil

namespace Graph

/-- The level of a registered entity. -/
def levelOf (g : Graph) (name : String) : Nat := ((g.find? name).map Entity.level).getD 0

/-- The names of a path by falling level. -/
def byLevel (g : Graph) (path : List String) : List String :=
  path.mergeSort fun a b => decide (g.levelOf b ≤ g.levelOf a)

/-- The ancestry of an entity, or the first cycle above it. -/
def relationship (g : Graph) (e : Entity) : Except Cycle Relationship := do
  let paths ← g.paths e.name
  return {
    name := e.name
    paths := paths.map g.byLevel
    ancestors := e.nearestFirst.filter e.required.contains }

end Graph

/-- The display structures of a graph at one moment. -/
structure View where
  entities : List Entity
  relationships : List Relationship
  forest : Forest
  rows : List Row
  deriving Repr

namespace View

/-- The view of a graph, or the first cycle in it. -/
def ofGraph (g : Graph) : Except Graph.Cycle View := do
  let relationships ← g.entities.mapM g.relationship
  let forest := Forest.ofRelationships relationships
  return { entities := g.entities, relationships, forest, rows := forest.rows none }

/-- A view as it is shown. -/
def display (view : View) : String :=
  let names := Name.listLiteral (view.entities.map Entity.label)
  s!"HierarchyView(entities={names}, leaves={view.rows.length})"

end View

end AccessMatrix
