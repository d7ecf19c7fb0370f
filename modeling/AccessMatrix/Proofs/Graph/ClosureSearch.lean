import AccessMatrix.Proofs.Graph.Cycles
import AccessMatrix.Proofs.Graph.Nearness

/-!
# The search behind a closure

A closure can be found by a loop that holds, besides the names visited, the path that it stands on:
a stack of the names on it, each with the parents that are still to be looked at. A parent that is on
the path closes a cycle, one that was visited is passed over, and any other goes on top. A name
without parents left leaves the path.

The loop comes to what the walk finds. The induction is on the depth of the walk, with the starts and
the entries of the stack that wait; nothing stands on the path twice, so a name that leaves it leaves
no trace there. The loop ends, and it fails exactly if a cycle is reached from one of the starts.
-/

namespace AccessMatrix.Graph

open Outcome
open Relation (ReflTransGen)

/-- A search at work: the starts that are still to be taken, what was visited, the names on the path,
and the stack, which has these names again with the parents that are still to be looked at. The latest
stand first. -/
structure Search where
  starts : List String
  visited : List String := []
  onPath : List String := []
  stack : List (String × List String) := []

/-- One turn of the loop. On an empty stack the next start is taken if it was not visited, and where
none is left the loop ends with what was visited. Else the name on top takes its next parent, or
leaves the path if it has none. -/
def Search.turn (parentsOf : String → List String) : Search → Search ⊕ Except Cycle (List String)
  | ⟨[], visited, _, []⟩ => .inr (.ok visited)
  | ⟨start :: starts, visited, onPath, []⟩ =>
    if start ∈ visited then .inl ⟨starts, visited, onPath, []⟩
    else .inl ⟨starts, start :: visited, [start], [(start, parentsOf start)]⟩
  | ⟨starts, visited, onPath, (name, []) :: stack⟩ =>
    .inl ⟨starts, visited, onPath.filter (· ≠ name), stack⟩
  | ⟨starts, visited, onPath, (name, parent :: pending) :: stack⟩ =>
    if parent ∈ onPath then .inr (.error ⟨parent, (name :: stack.map Prod.fst).reverse⟩)
    else if parent ∈ visited then .inl ⟨starts, visited, onPath, (name, pending) :: stack⟩
    else .inl ⟨starts, parent :: visited, parent :: onPath,
      (parent, parentsOf parent) :: (name, pending) :: stack⟩

/-- The loop comes to an end after finitely many turns, and with this result. -/
def Search.Yields (parentsOf : String → List String) (s : Search)
    (result : Except Cycle (List String)) : Prop :=
  ∃ last, ReflTransGen (fun s next => turn parentsOf s = .inl next) s last ∧
    turn parentsOf last = .inr result

/-- The loop, with some parents of a name to be looked at next, comes to what the walk finds for them:
it goes on with the later ones and what was visited then, or it ends with the cycle that was met. -/
def Search.ComesTo (parentsOf : String → List String) (below : List String) (name : String)
    (parents visited : List String) : Except Cycle (List String) → Prop
  | .ok reached => ∀ starts later stack result, stack.map Prod.fst = below →
      Yields parentsOf ⟨starts, reached, name :: below, (name, later) :: stack⟩ result →
      Yields parentsOf ⟨starts, visited, name :: below, (name, parents ++ later) :: stack⟩ result
  | .error cycle => ∀ starts later stack, stack.map Prod.fst = below →
      Yields parentsOf ⟨starts, visited, name :: below, (name, parents ++ later) :: stack⟩
        (.error cycle)

section

variable {parentsOf : String → List String} {names : List String}

namespace Search

variable {below visited : List String} {name parent : String}

/-- What a loop yields after a turn it yields before it. -/
theorem Yields.head {s next : Search} {result : Except Cycle (List String)}
    (hturn : turn parentsOf s = .inl next) (h : next.Yields parentsOf result) :
    s.Yields parentsOf result := by
  obtain ⟨last, hrun, hlast⟩ := h
  exact ⟨last, hrun.head hturn, hlast⟩

/-- The name on top leaves a path on which it does not stand again. -/
theorem Yields.leave {starts : List String} {stack : List (String × List String)}
    {result : Except Cycle (List String)} (hname : name ∉ below)
    (h : Yields parentsOf ⟨starts, visited, below, stack⟩ result) :
    Yields parentsOf ⟨starts, visited, name :: below, (name, []) :: stack⟩ result := by
  have hpath : (name :: below).filter (· ≠ name) = below := by
    rw [List.filter_cons_of_neg (by simp), List.filter_eq_self]
    intro other hother
    simpa using ne_of_mem_of_not_mem hother hname
  have hturn : turn parentsOf ⟨starts, visited, name :: below, (name, []) :: stack⟩ =
      .inl ⟨starts, visited, below, stack⟩ := by rw [turn, hpath]
  exact h.head hturn

/-- A parent that is on the path ends the loop with the cycle that it closes. -/
theorem comesTo_met (h : parent ∈ name :: below) :
    ComesTo parentsOf below name [parent] visited
      (.error ⟨parent, (name :: below).reverse⟩) := by
  intro starts later stack hstack
  refine ⟨_, .refl, ?_⟩
  rw [List.singleton_append, turn, if_pos h, hstack]

/-- A parent that was visited is passed over. -/
theorem comesTo_passed (hpath : parent ∉ name :: below) (hvisited : parent ∈ visited) :
    ComesTo parentsOf below name [parent] visited (.ok visited) := by
  intro starts later stack result _ hrest
  refine hrest.head ?_
  rw [List.singleton_append, turn, if_neg hpath, if_pos hvisited]

/-- A parent that was not visited is gone on with before the later ones. -/
theorem ComesTo.entered {outcome : Except Cycle (List String)} (hpath : parent ∉ name :: below)
    (hvisited : parent ∉ visited)
    (h : ComesTo parentsOf (name :: below) parent (parentsOf parent) (parent :: visited) outcome) :
    ComesTo parentsOf below name [parent] visited outcome := by
  have hturn (starts later : List String) (stack : List (String × List String)) :
      turn parentsOf ⟨starts, visited, name :: below, (name, [parent] ++ later) :: stack⟩ =
        .inl ⟨starts, parent :: visited, parent :: name :: below,
          (parent, parentsOf parent ++ []) :: (name, later) :: stack⟩ := by
    rw [List.singleton_append, turn, if_neg hpath, if_neg hvisited, List.append_nil]
  cases outcome with
  | error cycle =>
    intro starts later stack hstack
    exact (h starts [] ((name, later) :: stack) (congrArg (name :: ·) hstack)).head
      (hturn starts later stack)
  | ok reached =>
    intro starts later stack result hstack hrest
    exact (h starts [] ((name, later) :: stack) result (congrArg (name :: ·) hstack)
      (hrest.leave hpath)).head (hturn starts later stack)

/-- The loop comes to what is found for several parents in turn. -/
theorem comesTo_foldlM {parents : List String}
    {look : List String → String → Except Cycle (List String)}
    (h : ∀ visited, ∀ parent ∈ parents,
      ComesTo parentsOf below name [parent] visited (look visited parent)) :
    ComesTo parentsOf below name parents visited (parents.foldlM look visited) := by
  induction parents generalizing visited with
  | nil => exact fun starts later stack result _ hrest => hrest
  | cons parent rest ih =>
    have hparent := h visited parent List.mem_cons_self
    have hrest (visited : List String) :
        ComesTo parentsOf below name rest visited (rest.foldlM look visited) :=
      ih fun visited parent hparent => h visited parent (List.mem_cons_of_mem _ hparent)
    rw [List.foldlM_cons]
    generalize look visited parent = looked at hparent ⊢
    cases looked with
    | error cycle => exact fun starts later => hparent starts (rest ++ later)
    | ok reached =>
      specialize hrest reached
      change ComesTo parentsOf below name _ _ (rest.foldlM look reached)
      generalize rest.foldlM look reached = outcome at hrest ⊢
      cases outcome with
      | error cycle =>
        intro starts later stack hstack
        exact hparent starts (rest ++ later) stack _ hstack (hrest starts later stack hstack)
      | ok reached' =>
        intro starts later stack result hstack hlater
        exact hparent starts (rest ++ later) stack result hstack
          (hrest starts later stack result hstack hlater)

/-- The loop comes to what the walk finds for the parents of a name. -/
theorem comesTo_walk (hnames : ∀ name, parentsOf name ≠ [] → name ∈ names) {depth : Nat}
    (hpath : Path names below name) (hdepth : names.length ≤ depth + below.length) :
    ComesTo parentsOf below name (parentsOf name) visited
      (walk parentsOf depth (name :: below) visited name) := by
  induction depth generalizing below visited name with
  | zero =>
    have hparents : parentsOf name = [] := hpath.parentless hnames (by omega)
    rw [walk_of_parentless hparents, hparents]
    exact fun starts later stack result _ hrest => hrest
  | succ depth ih =>
    rw [walk_succ]
    refine comesTo_foldlM fun visited parent hparent => ?_
    split
    · rename_i hmet
      exact comesTo_met hmet
    · rename_i hfresh
      split
      · rename_i hvisited
        exact comesTo_passed hfresh hvisited
      · rename_i hvisited
        have hregistered : name ∈ names := hnames name (List.ne_nil_of_mem hparent)
        exact .entered hfresh hvisited
          (ih (hpath.cons hregistered hfresh) (by rw [List.length_cons]; omega))

/-- The loop yields what the closure finds. -/
theorem yields_closureWithin (hnames : ∀ name, parentsOf name ≠ [] → name ∈ names) {depth : Nat}
    (hdepth : names.length ≤ depth) (starts : List String) :
    Yields parentsOf { starts } (closureWithin parentsOf depth starts) := by
  rw [closureWithin]
  -- what was visited before matters to the later starts
  suffices h : ∀ visited, Yields parentsOf ⟨starts, visited, [], []⟩ (starts.foldlM _ visited) from
    h []
  induction starts with
  | nil => exact fun visited => ⟨_, .refl, rfl⟩
  | cons start rest ih =>
    intro visited
    rw [List.foldlM_cons]
    split
    · rename_i hvisited
      exact (ih visited).head (if_pos hvisited)
    · rename_i hvisited
      have hturn : turn parentsOf ⟨start :: rest, visited, [], []⟩ =
          .inl ⟨rest, start :: visited, [start], [(start, parentsOf start ++ [])]⟩ := by
        rw [turn, if_neg hvisited, List.append_nil]
      have hwalk : ComesTo parentsOf [] start (parentsOf start) (start :: visited)
          (walk parentsOf depth [start] (start :: visited) start) :=
        comesTo_walk hnames (path_nil start) (by simpa using hdepth)
      generalize walk parentsOf depth [start] (start :: visited) start = outcome at hwalk ⊢
      cases outcome with
      | error cycle => exact (hwalk rest [] [] rfl).head hturn
      | ok reached =>
        exact (hwalk rest [] [] _ rfl ((ih reached).leave (by simp))).head hturn

end Search

end

/-- The closure is a search that ends and detects cycles, whatever the parents of entities are, with
cycles anywhere and parents that are shared or repeated. From any starts, the loop with a stack comes
to an end, and with what the closure finds. It fails exactly if a cycle is reached from one of the
starts. What it reports then is such a cycle: the path begins at one of the starts and climbs link by
link, and the entity that is reported stands on the path and is a parent of its last entry. If it
succeeds, it has found exactly what the starts reach by parent links, themselves included, and each
entity once. -/
theorem closure_detects_cycles (g : Graph) (starts : List String) :
    Search.Yields g.parentsOf { starts } (g.closure starts) ∧
    ((∃ cycle, g.closure starts = .error cycle) ↔
      ∃ start ∈ starts, ReachesCycle g.parentsOf start) ∧
    (∀ cycle, g.closure starts = .error cycle →
      ∃ start ∈ starts, cycle.MetFrom g.parentsOf start) ∧
    ∀ reached, g.closure starts = .ok reached → reached.Nodup ∧
      ∀ name, name ∈ reached ↔ ∃ start ∈ starts, ReflTransGen (Link g.parentsOf) start name := by
  refine ⟨?_, ?_, fun cycle hcycle => closureWithin_error hcycle,
    fun reached hreached => ⟨closure_nodup hreached, mem_closure_iff hreached⟩⟩
  · exact Search.yields_closureWithin (mem_names_of_parents g) (Nat.le_of_eq g.length_names) starts
  · rw [exists_error_iff, exists_closure_iff]
    simp

/-- The path that is reported may lead to the cycle from outside, by an entity that was visited from
no earlier start. -/
example :
    let a : Entity := { label := .plain "a", kind := .plain, parents := ["root", "b"] }
    let b : Entity := { label := .plain "b", kind := .plain, parents := ["root", "a"] }
    let leaf : Entity := { label := .plain "leaf", kind := .plain, parents := ["root", "a"] }
    let root : Entity := { label := .plain "root", kind := .plain }
    Graph.closure ⟨[root, a, b, leaf]⟩ ["root", "leaf"] = .error ⟨"a", ["leaf", "a", "b"]⟩ := by
  decide +kernel

end AccessMatrix.Graph
