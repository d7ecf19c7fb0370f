import AccessMatrix.Proofs.Graph.Closure
import Mathlib.Data.List.Chain

/-!
# Cycles of parent links

Where parents were reassigned there may be cycles. A walk that fails has met one: the path that it
reports begins where the walk began and climbs link by link, and the entity that it reports stands on
the path and is a parent of the last entry. A closure that succeeds leaves no room for a cycle, so it
fails exactly if a cycle is reached from one of its starts.
-/

namespace AccessMatrix.Graph

open Outcome
open Relation (ReflTransGen TransGen)

/-- A cycle of parent links is reached from a name. -/
def ReachesCycle (parentsOf : String → List String) (name : String) : Prop :=
  ∃ other, ReflTransGen (Link parentsOf) name other ∧ TransGen (Link parentsOf) other other

/-- What is reported of a cycle that was met from a start: the path begins there and climbs link by
link, and the entity met again stands on the path and is a parent of its last entry. -/
structure Cycle.MetFrom (parentsOf : String → List String) (start : String) (cycle : Cycle) :
    Prop where
  begins : cycle.path.head? = some start
  climbs : cycle.path.IsChain (Link parentsOf)
  name_mem : cycle.name ∈ cycle.path
  closes : ∃ last, cycle.path.getLast? = some last ∧ Link parentsOf last cycle.name

section

variable {parentsOf : String → List String}

/-- What is reported of a cycle is one, and it is reached from the start. -/
theorem Cycle.MetFrom.reachesCycle {start : String} {cycle : Cycle}
    (h : cycle.MetFrom parentsOf start) : ReachesCycle parentsOf start := by
  obtain ⟨last, hlast, hcloses⟩ := h.closes
  have hreached : ∀ name ∈ cycle.path, ReflTransGen (Link parentsOf) start name :=
    h.climbs.induction _ _ (fun _ _ hlink hstart => hstart.tail hlink) fun hne => by
      rw [Option.some.inj (h.begins.symm.trans (List.head?_eq_some_head hne))]
  have hreaches : ∀ name ∈ cycle.path, ReflTransGen (Link parentsOf) name last :=
    h.climbs.backwards_induction _ _ (fun _ _ hlink hend => hend.head hlink) fun hne => by
      rw [Option.some.inj (hlast.symm.trans (List.getLast?_eq_some_getLast hne))]
  exact ⟨cycle.name, hreached _ h.name_mem, .tail' (hreaches _ h.name_mem) hcloses⟩

/-- Where every chain from a name ends, so does every chain from what it reaches. -/
theorem Ends.of_reaches {name other : String} (h : Ends parentsOf name)
    (hreach : ReflTransGen (Link parentsOf) name other) : Ends parentsOf other := by
  induction hreach with
  | refl => exact h
  | tail _ hlink ih => exact ih.inv hlink

/-- A name from which every chain ends reaches no cycle. -/
theorem Ends.not_reachesCycle {name : String} (h : Ends parentsOf name) :
    ¬ ReachesCycle parentsOf name :=
  fun ⟨_, hreach, hcycle⟩ => (h.of_reaches hreach).not_above_self hcycle

/-- A cycle is reached from a name exactly if it is from one of its parents. -/
theorem reachesCycle_iff {name : String} :
    ReachesCycle parentsOf name ↔ ∃ parent ∈ parentsOf name, ReachesCycle parentsOf parent := by
  constructor
  · rintro ⟨other, hreach, hcycle⟩
    rcases ReflTransGen.cases_head hreach with rfl | ⟨parent, hlink, hreach⟩
    · obtain ⟨parent, hlink, hreach⟩ := TransGen.head'_iff.mp hcycle
      exact ⟨parent, hlink, name, hreach, hcycle⟩
    · exact ⟨parent, hlink, other, hreach, hcycle⟩
  · rintro ⟨parent, hlink, other, hreach, hcycle⟩
    exact ⟨other, hreach.head hlink, hcycle⟩

/-- A walk that fails has met a cycle from the start of its path. -/
theorem walk_error {depth : Nat} {path visited : List String} {start name : String}
    {cycle : Cycle} (hstart : (name :: path).getLast? = some start)
    (hclimbs : (name :: path).reverse.IsChain (Link parentsOf))
    (h : walk parentsOf depth (name :: path) visited name = .error cycle) :
    cycle.MetFrom parentsOf start := by
  induction depth generalizing path visited name with
  | zero => cases h
  | succ depth ih =>
    rw [walk_succ] at h
    obtain ⟨state, parent, hlink, h⟩ := exists_of_foldlM_eq_error h
    have hlast : (name :: path).reverse.getLast? = some name := by simp
    split at h
    · rename_i hparent
      obtain rfl := Except.error.inj h
      exact ⟨List.head?_reverse.trans hstart, hclimbs, List.mem_reverse.mpr hparent, name, hlast, hlink⟩
    · split at h
      · cases h
      · refine ih ?_ ?_ h
        · rw [List.getLast?_cons_cons, hstart]
        · rw [List.reverse_cons]
          refine hclimbs.append (.singleton _) fun _ hend _ hhead => ?_
          obtain rfl := Option.some.inj (hlast.symm.trans hend)
          obtain rfl := Option.some.inj hhead
          exact hlink

/-- A closure that fails has met a cycle from one of its starts. -/
theorem closureWithin_error {depth : Nat} {starts : List String} {cycle : Cycle}
    (h : closureWithin parentsOf depth starts = .error cycle) :
    ∃ start ∈ starts, cycle.MetFrom parentsOf start := by
  obtain ⟨visited, start, hstart, h⟩ := exists_of_foldlM_eq_error h
  refine ⟨start, hstart, ?_⟩
  split at h
  · cases h
  · exact walk_error (by simp) (by simp) h

end

/-- A closure succeeds exactly if no cycle is reached from its starts. -/
theorem exists_closure_iff {g : Graph} {starts : List String} :
    (∃ reached, g.closure starts = .ok reached) ↔
      ∀ start ∈ starts, ¬ ReachesCycle g.parentsOf start := by
  constructor
  · rintro ⟨reached, h⟩ start hstart
    exact (ends_of_closure h start hstart).not_reachesCycle
  · intro h
    cases hclosure : g.closure starts with
    | ok reached => exact ⟨reached, rfl⟩
    | error cycle =>
      obtain ⟨start, hstart, hmet⟩ := closureWithin_error hclosure
      exact absurd hmet.reachesCycle (h start hstart)

/-- The closure of the parents of a name succeeds exactly if the name reaches no cycle. -/
theorem exists_closure_parents_iff {g : Graph} {name : String} :
    (∃ reached, g.closure (g.parentsOf name) = .ok reached) ↔ ¬ ReachesCycle g.parentsOf name := by
  rw [exists_closure_iff, reachesCycle_iff]
  simp

end AccessMatrix.Graph
