import AccessMatrix.Graph.Basic

/-!
# Ancestor closure

The entities reached from some start entities by parent links, found by a depth-first walk. The walk
keeps the path from the current start: a parent that stands on the path closes a cycle, and the walk
ends there and reports the parent and the path.

An entity enters the path only when it was not visited before, so a path is never longer than the
number of entities, which bounds the depth of the walk.
-/

namespace AccessMatrix.Graph

/-- A cycle met by a walk: the entity met again, and the path that led back to it. Entities are told
apart by their names, or by whatever else does. -/
structure Cycle (α : Type := String) where
  name : α
  path : List α
  deriving DecidableEq, Repr

/-- Visit everything above an entity. The path is held with its latest entity first, the visited
names with the latest first. -/
def walk {α : Type} [DecidableEq α] (parentsOf : α → List α) :
    Nat → List α → List α → α → Except (Cycle α) (List α)
  | 0, _, visited, _ => .ok visited
  | depth + 1, path, visited, name =>
    (parentsOf name).foldlM (fun visited parent =>
      if parent ∈ path then .error ⟨parent, path.reverse⟩
      else if parent ∈ visited then .ok visited
      else walk parentsOf depth (parent :: path) (parent :: visited) parent) visited

/-- The entities reached from the starts, the starts included, by walks of bounded depth. -/
def closureWithin {α : Type} [DecidableEq α] (parentsOf : α → List α) (depth : Nat)
    (starts : List α) : Except (Cycle α) (List α) :=
  starts.foldlM (fun visited start =>
    if start ∈ visited then .ok visited
    else walk parentsOf depth [start] (start :: visited) start) []

/-- The entities reached from the starts by parent links, or the first cycle met. -/
def closure (g : Graph) (starts : List String) : Except Cycle (List String) :=
  closureWithin g.parentsOf g.size starts

end AccessMatrix.Graph
