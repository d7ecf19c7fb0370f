import AccessMatrix.Proofs.Graph.Closure

/-!
# The bound on a registration

A registration goes up the parent links twice: to find the ancestors of the new entity, and to tell
the contexts that gate it. Both are bounded by the number of entities. The second one keeps no record
of where it was, so by itself it would not end on a cycle. It is begun only after the first one has
succeeded; then no chain above the new entity goes on for ever, and the bound is never met.
-/

namespace AccessMatrix.Graph

open Outcome
open Relation (TransGen)

/-- What gates a branch is registered. -/
theorem gatesWithin_mem {g : Graph} {depth : Nat} {name : String} :
    ∀ gate ∈ g.gatesWithin depth name, gate ∈ g.names := by
  induction depth generalizing name with
  | zero => simp [gatesWithin]
  | succ depth ih =>
    rw [gatesWithin]
    split
    · simp
    · rename_i e hfind
      split
      · have he : e.name ∈ g.names := List.mem_map_of_mem (List.mem_of_find?_eq_some hfind)
        exact fun gate hgate => List.mem_singleton.mp hgate ▸ he
      · intro gate hgate
        obtain ⟨parent, -, hgate⟩ := List.mem_flatMap.mp hgate
        exact ih gate hgate

/-- A name has no gates if every registered name stands below it. -/
theorem gatesWithin_of_full {g : Graph} {below : List String} {name : String}
    (hpath : Path g.names below name) (hfull : g.size ≤ below.length) (depth : Nat) :
    g.gatesWithin depth name = [] := by
  have hnone : g.find? name = none := find?_eq_none_iff.mpr (hpath.not_mem (by rwa [length_names]))
  cases depth with
  | zero => rfl
  | succ depth => rw [gatesWithin, hnone]

/-- What gates a branch is found in full: where the chains above a name end, a greater depth would make
no difference. -/
theorem gatesWithin_stable {g : Graph} {depth depth' : Nat} {below : List String} {name : String}
    (hends : Ends g.parentsOf name) (hpath : Path g.names below name)
    (hbelow : ∀ other ∈ below, TransGen (Link g.parentsOf) other name)
    (hdepth : g.size ≤ depth + below.length) (hdepth' : g.size ≤ depth' + below.length) :
    g.gatesWithin depth name = g.gatesWithin depth' name := by
  induction depth generalizing depth' below name with
  | zero =>
    have hfull : g.size ≤ below.length := by omega
    rw [gatesWithin_of_full hpath hfull, gatesWithin_of_full hpath hfull]
  | succ depth ih =>
    cases depth' with
    | zero =>
      have hfull : g.size ≤ below.length := by omega
      rw [gatesWithin_of_full hpath hfull, gatesWithin_of_full hpath hfull]
    | succ depth' =>
      rw [gatesWithin, gatesWithin]
      split
      · rfl
      · rename_i e hfind
        split
        · rfl
        · refine List.flatMap_congr fun parent hparent => ?_
          have hlink : Link g.parentsOf name parent := by simpa [Link, parentsOf, hfind] using hparent
          have hparentEnds : Ends g.parentsOf parent := hends.inv hlink
          have hmore : ∀ other ∈ name :: below, TransGen (Link g.parentsOf) other parent :=
            List.forall_mem_cons.mpr
              ⟨.single hlink, fun other hother => (hbelow other hother).tail hlink⟩
          -- a chain that ends does not come back, so the path has no name twice
          have hfresh : parent ∉ name :: below := fun hagain =>
            hparentEnds.not_above_self (hmore parent hagain)
          have hname : name ∈ g.names := mem_names_of_parents g name (List.ne_nil_of_mem hlink)
          exact ih hparentEnds (hpath.cons hname hfresh) hmore (by rw [List.length_cons]; omega)
            (by rw [List.length_cons]; omega)

/-- The contexts that gate a new entity are found in full. -/
theorem gates_stable {g : Graph} {parents : List String}
    (hends : ∀ parent ∈ parents, Ends g.parentsOf parent) {depth : Nat} (hdepth : g.size ≤ depth) :
    (parents.flatMap (g.gatesWithin depth)).eraseDups = g.gates parents := by
  refine congrArg List.eraseDups (List.flatMap_congr fun parent hparent => ?_)
  exact gatesWithin_stable (hends parent hparent) (path_nil parent) (by simp) hdepth (Nat.le_refl _)

/-- What gates an entity is registered. -/
theorem gates_mem {g : Graph} {parents : List String} :
    ∀ gate ∈ g.gates parents, gate ∈ g.names := by
  intro gate hgate
  obtain ⟨parent, -, hgate⟩ := List.mem_flatMap.mp (List.mem_eraseDups.mp hgate)
  exact gatesWithin_mem gate hgate

/-- A registration whose ways up the parent links have some other bound. -/
def registerWithin (g : Graph) (depth : Nat) (r : Registration) : Except Error (Graph × Entity) := do
  let d ← g.draft r
  match closureWithin g.parentsOf depth d.parents with
  | .error cycle => throw (.graph (.cyclic (g.labelOf cycle.name) cycle.path))
  | .ok ancestors =>
    let owners := (d.parents.flatMap (g.gatesWithin depth)).eraseDups
    let e := { g.derive d ancestors with owners }
    return (g.link e, e)

/-- Whatever the parent links are, no registration is cut short by its bound. -/
theorem registerWithin_stable (g : Graph) {depth : Nat} (hdepth : g.size ≤ depth)
    (r : Registration) : g.registerWithin depth r = g.register r := by
  rw [registerWithin, register]
  refine bind_congr fun d => ?_
  rw [closure_stable g hdepth]
  cases hclosure : g.closure d.parents with
  | error cycle => rfl
  | ok ancestors =>
    have howners := gates_stable (ends_of_closure hclosure) hdepth
    dsimp only
    rw [howners]
    rfl

end AccessMatrix.Graph
