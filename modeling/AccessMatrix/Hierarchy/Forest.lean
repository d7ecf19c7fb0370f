/-!
# Forests of names

A forest is an ordered family of named trees. An entity with several branches appears once under
each of them. A branch is added by walking down along its names and growing what is missing, so
nothing added before is lost.
-/

namespace AccessMatrix

/-- An ordered family of named trees: the first tree's name, what stands below it, and the trees
after it. -/
inductive Forest where
  | nil
  | cons (name : String) (below rest : Forest)
  deriving DecidableEq, Repr

namespace Forest

/-- One branch, each name below the one before it. -/
def branch : List String → Forest
  | [] => nil
  | name :: names => cons name (branch names) nil

/-- Add a branch. -/
def add : Forest → List String → Forest
  | forest, [] => forest
  | nil, names => branch names
  | cons top below rest, name :: names =>
    if top = name then cons top (below.add names) rest
    else cons top below (rest.add (name :: names))

/-- Put a tree under a name, in the place of the tree of that name if there is one. -/
def put : Forest → String → Forest → Forest
  | nil, name, tree => cons name tree nil
  | cons top below rest, name, tree =>
    if top = name then cons top tree rest else cons top below (rest.put name tree)

/-- The number of names in a forest. -/
def size : Forest → Nat
  | nil => 0
  | cons _ below rest => below.size + rest.size + 1

/-- The trees of a forest by name. -/
def trees : Forest → List (String × Forest)
  | nil => []
  | cons name below rest => (name, below) :: rest.trees

end Forest

/-- A row of the display: a name, its own number, its level, and the number of the row it stands
under. -/
structure Row where
  name : String
  number : Nat
  level : Int
  parent? : Option Nat := none
  deriving DecidableEq, Repr

namespace Forest

/-- The rows of a forest with each row after those below it. Rows are numbered from `start` in the
order in which a walk from the top meets them. -/
def rowsBelow (level : Int) (parent? : Option Nat) : Nat → Forest → List Row
  | _, nil => []
  | start, cons name below rest =>
    below.rowsBelow (level + 1) (some start) (start + 1) ++
      ⟨name, start, level, parent?⟩ :: rest.rowsBelow level parent? (start + 1 + below.size)

/-- The rows of a forest. Under a given row they stand with each row after those below it; without
one they are ordered by level, and keep that order within a level. -/
def rows (forest : Forest) : Option Row → List Row
  | some row => forest.rowsBelow (row.level + 1) (some row.number) (row.number + 1)
  | none => (forest.rowsBelow 1 none 0).mergeSort fun a b => decide (a.level ≤ b.level)

end Forest

end AccessMatrix
