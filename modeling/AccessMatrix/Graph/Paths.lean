import AccessMatrix.Graph.Closure

/-!
# Root-ward paths

The ways from an entity up to an entity without parents, one for each sequence of parent choices,
in the declaration order of the parents. An entity that would stand twice on one way closes a cycle.
-/

namespace AccessMatrix.Graph

/-- The ways up from the end of a path that began at `origin`, each with the path before it. -/
def pathsWithin (parentsOf : String → List String) (origin : String) :
    Nat → List String → String → Except Cycle (List (List String))
  | 0, _, _ => .ok []
  | depth + 1, path, name =>
    match parentsOf name with
    | [] => .ok [path]
    | parents =>
      if parents.any fun parent => parent = origin || path.contains parent then
        .error ⟨origin, path⟩
      else
        (parents.mapM fun parent =>
          pathsWithin parentsOf origin depth (path ++ [parent]) parent).map List.flatten

/-- Every way from an entity up to a root, nearest parent first; a root has the empty way only. A
way has no entity twice, so it is shorter than the number of entities. -/
def paths (g : Graph) (name : String) : Except Cycle (List (List String)) :=
  pathsWithin g.parentsOf name (g.size + 1) [] name

end AccessMatrix.Graph
