import AccessMatrix.Proofs.Graph.Ways

/-!
# Choices of parents

A way up to a root is told by the positions of the parents that it goes on with. Parents may stand
more than once in a declaration, and then several sequences of choices lead along one way. The
enumeration has one way for each sequence, in the lexicographic order of the sequences.
-/

namespace AccessMatrix.Graph

/-- The way from an entity up to a root by some choices of parents, told by their positions, if they
end at one. -/
def wayBy (parentsOf : String → List String) (name : String) : List Nat → Option (List String)
  | [] => if parentsOf name = [] then some [] else none
  | position :: choices =>
    (parentsOf name)[position]?.bind fun parent =>
      (wayBy parentsOf parent choices).map (parent :: ·)

/-- Some ways are those of all choices of parents that end at a root: one for each sequence of choices,
in the lexicographic order of the sequences. -/
def InOrderOfChoice (parentsOf : String → List String) (name : String)
    (ways : List (List String)) : Prop :=
  ∃ choices : List (List Nat), choices.Pairwise (· < ·) ∧
    (∀ chosen, chosen ∈ choices ↔ (wayBy parentsOf name chosen).isSome) ∧
    ways.map some = choices.map (wayBy parentsOf name)

/-- The choices up to a root with fewer steps than a bound, in their order. -/
def choicesWithin (parentsOf : String → List String) : Nat → String → List (List Nat)
  | 0, _ => []
  | depth + 1, name =>
    if parentsOf name = [] then [[]]
    else (parentsOf name).zipIdx.flatMap fun entry =>
      (choicesWithin parentsOf depth entry.1).map (entry.2 :: ·)

section

variable {parentsOf : String → List String}

theorem wayBy_cons {name parent : String} {position : Nat}
    (h : (parentsOf name)[position]? = some parent) (choices : List Nat) :
    wayBy parentsOf name (position :: choices) =
      (wayBy parentsOf parent choices).map (parent :: ·) := by
  rw [wayBy, h, Option.bind_some]

/-- Choices that end at a root lead along a way up to it, one step for each. -/
theorem rootWay_of_wayBy {name : String} {choices : List Nat} {way : List String}
    (h : wayBy parentsOf name choices = some way) :
    RootWay parentsOf name way ∧ way.length = choices.length := by
  induction choices generalizing name way with
  | nil =>
    rw [wayBy] at h
    split at h
    · rename_i hroot
      obtain rfl := Option.some.inj h
      exact ⟨.root hroot, rfl⟩
    · contradiction
  | cons position choices ih =>
    obtain ⟨parent, hparent, h⟩ := Option.bind_eq_some_iff.mp h
    obtain ⟨rest, hrest, rfl⟩ := Option.map_eq_some_iff.mp h
    obtain ⟨hway, hlength⟩ := ih hrest
    exact ⟨.up (List.mem_of_getElem? hparent) hway, by simp [hlength]⟩

/-- The enumeration has a sequence of choices exactly if it ends at a root and is shorter than the
bound. -/
theorem mem_choicesWithin_iff {depth : Nat} {name : String} {chosen : List Nat} :
    chosen ∈ choicesWithin parentsOf depth name ↔
      (wayBy parentsOf name chosen).isSome ∧ chosen.length < depth := by
  induction depth generalizing name chosen with
  | zero => simp [choicesWithin]
  | succ depth ih =>
    rw [choicesWithin]
    split
    · rename_i hroot
      cases chosen <;> simp [wayBy, hroot]
    · rename_i hparents
      cases chosen with
      | nil => simp [wayBy, hparents]
      | cons position choices =>
        simp only [List.mem_flatMap, List.mem_map, List.mem_zipIdx_iff_getElem?, List.cons.injEq]
        constructor
        · rintro ⟨⟨parent, position⟩, hparent, choices, hchoices, rfl, rfl⟩
          obtain ⟨hsome, hlength⟩ := ih.mp hchoices
          rw [wayBy_cons hparent, Option.isSome_map]
          exact ⟨hsome, Nat.succ_lt_succ hlength⟩
        · rintro ⟨hsome, hlength⟩
          obtain ⟨way, hway⟩ := Option.isSome_iff_exists.mp hsome
          obtain ⟨parent, hparent, -⟩ := Option.bind_eq_some_iff.mp hway
          rw [wayBy_cons hparent, Option.isSome_map] at hsome
          exact ⟨(parent, position), hparent, choices,
            ih.mpr ⟨hsome, Nat.lt_of_succ_lt_succ hlength⟩, rfl, rfl⟩

/-- Sequences of choices are enumerated in their order. -/
theorem choicesWithin_pairwise (depth : Nat) (name : String) :
    (choicesWithin parentsOf depth name).Pairwise (· < ·) := by
  induction depth generalizing name with
  | zero => exact .nil
  | succ depth ih =>
    rw [choicesWithin]
    split
    · exact List.pairwise_singleton _ _
    · refine List.pairwise_flatMap.mpr ⟨fun entry _ => ?_, ?_⟩
      · exact List.pairwise_map.mpr ((ih entry.1).imp fun h => List.cons_lt_cons_iff.mpr (.inr ⟨rfl, h⟩))
      · have hpositions : ((parentsOf name).zipIdx.map Prod.snd).Pairwise (· < ·) := by
          rw [List.zipIdx_map_snd]
          exact List.pairwise_lt_range'
        refine (List.pairwise_map.mp hpositions).imp fun hbefore => ?_
        intro chosen hchosen chosen' hchosen'
        obtain ⟨_, -, rfl⟩ := List.mem_map.mp hchosen
        obtain ⟨_, -, rfl⟩ := List.mem_map.mp hchosen'
        exact List.cons_lt_cons_iff.mpr (.inl hbefore)

/-- The ways are enumerated in the order of the choices. -/
theorem map_wayBy_choicesWithin (depth : Nat) (name : String) :
    (waysWithin parentsOf depth name).map some =
      (choicesWithin parentsOf depth name).map (wayBy parentsOf name) := by
  induction depth generalizing name with
  | zero => rfl
  | succ depth ih =>
    rw [waysWithin, choicesWithin]
    split
    · rename_i hroot
      simp [wayBy, hroot]
    · have hstep : ∀ entry ∈ (parentsOf name).zipIdx,
          ((choicesWithin parentsOf depth entry.1).map (entry.2 :: ·)).map (wayBy parentsOf name) =
            ((waysWithin parentsOf depth entry.1).map (entry.1 :: ·)).map some := by
        intro entry hentry
        have hparent := List.mem_zipIdx_iff_getElem?.mp hentry
        have hways := congrArg (List.map (Option.map (entry.1 :: ·))) (ih entry.1)
        simpa [wayBy_cons hparent, Function.comp_def] using hways.symm
      rw [List.map_flatMap, List.map_flatMap, List.flatMap_congr hstep]
      conv_lhs => rw [← List.zipIdx_map_fst 0 (parentsOf name), List.flatMap_map]

/-- The ways up to a root are enumerated in the order of choice, if the bound is above their steps. -/
theorem inOrderOfChoice_waysWithin {depth : Nat} {name : String}
    (h : ∀ way, RootWay parentsOf name way → way.length < depth) :
    InOrderOfChoice parentsOf name (waysWithin parentsOf depth name) := by
  refine ⟨choicesWithin parentsOf depth name, choicesWithin_pairwise depth name, fun chosen => ?_,
    map_wayBy_choicesWithin depth name⟩
  refine mem_choicesWithin_iff.trans (and_iff_left_of_imp fun hsome => ?_)
  obtain ⟨way, hway⟩ := Option.isSome_iff_exists.mp hsome
  obtain ⟨hroot, hlength⟩ := rootWay_of_wayBy hway
  exact hlength ▸ h way hroot

end

end AccessMatrix.Graph
