import AccessMatrix.Proofs.Graph.Nearness

/-!
# Root-ward ways

A way from an entity up to a root chooses a parent at every step. The enumeration of paths follows
these choices and watches for an entity that it meets again. In a graph made by registration levels
fall along every way, so nothing is met again and the bound on the steps is never reached: the
enumeration succeeds and has every way once. The longest ways have a step less than the level of the
entity.
-/

namespace AccessMatrix.Graph

open Outcome

/-- The ways from an entity up to a root: the chosen parents, nearest first. -/
inductive RootWay (parentsOf : String → List String) : String → List String → Prop where
  | root {name : String} (h : parentsOf name = []) : RootWay parentsOf name []
  | up {name parent : String} {way : List String} (hlink : Link parentsOf name parent)
      (h : RootWay parentsOf parent way) : RootWay parentsOf name (parent :: way)

/-- The ways up to a root with fewer steps than a bound, in the order of the choices. -/
def waysWithin (parentsOf : String → List String) : Nat → String → List (List String)
  | 0, _ => []
  | depth + 1, name =>
    if parentsOf name = [] then [[]]
    else (parentsOf name).flatMap fun parent =>
      (waysWithin parentsOf depth parent).map (parent :: ·)

section

variable {parentsOf : String → List String} {level : String → Nat}

/-- The enumeration has a way exactly if it is shorter than the bound. -/
theorem mem_waysWithin_iff {depth : Nat} {name : String} {way : List String} :
    way ∈ waysWithin parentsOf depth name ↔ RootWay parentsOf name way ∧ way.length < depth := by
  induction depth generalizing name way with
  | zero => simp [waysWithin]
  | succ depth ih =>
    rw [waysWithin]
    split
    · rename_i hroot
      rw [List.mem_singleton]
      constructor
      · rintro rfl
        exact ⟨.root hroot, Nat.succ_pos depth⟩
      · rintro ⟨hway, -⟩
        cases hway with
        | root => rfl
        | up hlink => simp [Link, hroot] at hlink
    · rename_i hparents
      simp only [List.mem_flatMap, List.mem_map, ih]
      constructor
      · rintro ⟨parent, hlink, way, ⟨hway, hlength⟩, rfl⟩
        exact ⟨.up hlink hway, Nat.succ_lt_succ hlength⟩
      · rintro ⟨hway, hlength⟩
        cases hway with
        | root hroot => exact absurd hroot hparents
        | up hlink hway => exact ⟨_, hlink, _, ⟨hway, Nat.lt_of_succ_lt_succ hlength⟩, rfl⟩

/-- Parents that are told apart make ways that are. -/
theorem nodup_waysWithin (hparents : ∀ name, (parentsOf name).Nodup) (depth : Nat)
    (name : String) : (waysWithin parentsOf depth name).Nodup := by
  induction depth generalizing name with
  | zero => exact List.nodup_nil
  | succ depth ih =>
    rw [waysWithin]
    split
    · exact List.nodup_singleton []
    · refine nodup_flatMap_of_mark List.head? some (fun parent _ way hway => ?_) ?_ ?_
      · obtain ⟨rest, -, rfl⟩ := List.mem_map.mp hway
        rfl
      · exact (hparents name).map fun _ _ => Option.some.inj
      · exact fun parent _ => (ih parent).map (List.cons_injective)

/-- Where levels fall along links, no entity on a path up from its origin is met again, and the
enumeration succeeds. -/
theorem pathsWithin_eq (hlevel : ∀ child parent, Link parentsOf child parent →
      level parent < level child) {origin : String} {depth : Nat} {path : List String}
    {name : String} (hpath : ∀ other ∈ origin :: path, level name ≤ level other) :
    pathsWithin parentsOf origin depth path name =
      .ok ((waysWithin parentsOf depth name).map (path ++ ·)) := by
  induction depth generalizing path name with
  | zero => rfl
  | succ depth ih =>
    rw [pathsWithin, waysWithin]
    cases hparents : parentsOf name with
    | nil => simp
    | cons first rest =>
      -- everything met so far has at least the level of the end, and a parent has a lower one
      have hbelow : ∀ parent ∈ first :: rest, ∀ other ∈ origin :: path,
          level parent < level other := fun parent hparent other hother =>
        Nat.lt_of_lt_of_le (hlevel name parent (hparents.symm ▸ hparent : parent ∈ parentsOf name))
          (hpath other hother)
      have hclear : ((first :: rest).any fun parent =>
          parent = origin || path.contains parent) = false := by
        refine List.any_eq_false.mpr fun parent hparent hmet => ?_
        have hmem : parent ∈ origin :: path := by simpa using hmet
        exact Nat.lt_irrefl _ (hbelow parent hparent parent hmem)
      have hpaths : (first :: rest).mapM (fun parent =>
            pathsWithin parentsOf origin depth (path ++ [parent]) parent) =
          .ok ((first :: rest).map fun parent =>
            (waysWithin parentsOf depth parent).map (path ++ [parent] ++ ·)) := by
        refine mapM_eq_ok fun parent hparent => ih fun other hother => ?_
        rw [← List.cons_append, List.mem_append, List.mem_singleton] at hother
        rcases hother with hother | rfl
        · exact Nat.le_of_lt (hbelow parent hparent other hother)
        · exact Nat.le_refl _
      simp only [hclear, hpaths, Except.map, reduceCtorEq, if_false, Bool.false_eq_true]
      simp [List.flatMap_def, List.map_flatten, Function.comp_def]

/-- Where levels fall along links, they fall along every way. -/
theorem RootWay.falls (hlevel : ∀ child parent, Link parentsOf child parent →
      level parent < level child) {name : String} {way : List String}
    (h : RootWay parentsOf name way) :
    (name :: way).Pairwise fun a b => level b < level a := by
  induction h with
  | root => exact List.pairwise_singleton _ _
  | @up name parent way hlink _ ih =>
    refine List.pairwise_cons.mpr ⟨fun other hother => ?_, ih⟩
    have hparent := hlevel name parent hlink
    rcases List.mem_cons.mp hother with rfl | hother
    · exact hparent
    · exact Nat.lt_trans ((List.pairwise_cons.mp ih).1 other hother) hparent

/-- Above each name on a way the way goes on as one of that name. -/
theorem RootWay.goes_on {name other : String} {way rest : List String}
    (h : RootWay parentsOf name way) (hrest : other :: rest <:+ name :: way) :
    RootWay parentsOf other rest := by
  induction h with
  | @root name h =>
    obtain ⟨rfl, rfl⟩ := List.cons.inj ((List.suffix_cons_iff.mp hrest).resolve_right (by simp))
    exact .root h
  | @up name parent way hlink h ih =>
    rcases List.suffix_cons_iff.mp hrest with hsame | hrest
    · obtain ⟨rfl, rfl⟩ := List.cons.inj hsame
      exact .up hlink h
    · exact ih hrest

end

/-- The ways of an entity up to a root. -/
def ways (g : Graph) (name : String) : List (List String) :=
  waysWithin g.parentsOf (g.size + 1) name

section

variable {g : Graph}

theorem Registered.parentsOf_nodup (h : g.Registered) (name : String) :
    (g.parentsOf name).Nodup := by
  rw [parentsOf]
  cases hfind : g.find? name with
  | none => exact List.nodup_nil
  | some e => exact h.consistent.parents_nodup e (List.mem_of_find?_eq_some hfind)

/-- A level is at most the number of entities. -/
theorem Registered.level_le_size (h : g.Registered) : ∀ e ∈ g.entities, e.level ≤ g.size := by
  induction h with
  | empty => exact fun _ he => absurd he List.not_mem_nil
  | @register g g' r new hg h ih =>
    obtain ⟨d, ancestors, -, -, rfl, rfl⟩ := register_cases h
    have hsize : (g.link (g.derive d ancestors)).size = g.size + 1 := by
      simp [size, entities_link]
    have hlevels : ((d.parents.filterMap g.find?).map Entity.level).foldl max 0 ≤ g.size := by
      refine foldl_max_le_iff.mpr ⟨Nat.zero_le _, List.forall_mem_map.mpr fun e he => ?_⟩
      obtain ⟨name, -, hfind⟩ := List.mem_filterMap.mp he
      exact ih e (List.mem_of_find?_eq_some hfind)
    rw [hsize]
    refine forall_mem_link.mpr ⟨fun e he => Nat.le_succ_of_le (ih e he), ?_⟩
    change 1 + _ ≤ g.size + 1
    omega

/-- A way has fewer steps than its entity has levels. -/
theorem Registered.length_lt_level (h : g.Registered) {e : Entity} (he : e ∈ g.entities)
    {way : List String} (hway : RootWay g.parentsOf e.name way) : way.length < e.level := by
  generalize hname : e.name = name at hway
  induction hway generalizing e with
  | root =>
    rw [(h.derived e he).level]
    exact Nat.add_pos_left Nat.one_pos _
  | @up name parent way hlink hway ih =>
    obtain rfl := hname
    obtain ⟨above, habove, hparent⟩ := mem_names.mp (parentsOf_mem h.related e.name parent hlink)
    have hfall := h.levelOf_lt hlink
    rw [← hparent, h.levelOf_name he, h.levelOf_name habove] at hfall
    exact Nat.lt_of_le_of_lt (ih habove hparent) hfall

/-- What stands on a way is registered. -/
theorem Registered.forall_mem_way (h : g.Registered) {name : String} (hname : name ∈ g.names)
    {way : List String} (hway : RootWay g.parentsOf name way) :
    ∀ other ∈ name :: way, other ∈ g.names := by
  induction hway with
  | root => exact List.forall_mem_singleton.mpr hname
  | up hlink _ ih =>
    exact List.forall_mem_cons.mpr ⟨hname, ih (parentsOf_mem h.related _ _ hlink)⟩

/-- Some way has a step for every level above the entity. -/
theorem Registered.exists_longest_way (h : g.Registered) {e : Entity} (he : e ∈ g.entities) :
    ∃ way, RootWay g.parentsOf e.name way ∧ way.length + 1 = e.level := by
  generalize hname : e.name = name
  induction h.ends name generalizing e with
  | intro name _ ih =>
    obtain rfl := hname
    have hlevel := (h.derived e he).level
    by_cases hroot : e.parents = []
    · refine ⟨[], .root ((h.parentsOf_name he).trans hroot), ?_⟩
      rw [hlevel, hroot]
      rfl
    · obtain ⟨parent, hparent, hmax⟩ :=
        List.mem_map.mp (foldl_max_mem (List.map_eq_nil_iff.not.mpr hroot))
      have hlink : Link g.parentsOf e.name parent := by rwa [Link, h.parentsOf_name he]
      obtain ⟨above, habove, rfl⟩ := mem_names.mp ((h.related e he).parents_mem parent hparent)
      obtain ⟨way, hway, hlength⟩ := ih above.name hlink habove rfl
      refine ⟨above.name :: way, .up hlink hway, ?_⟩
      rw [List.length_cons, hlength, hlevel, ← hmax, h.levelOf_name habove, Nat.add_comm]

/-- The enumeration of paths succeeds. -/
theorem Registered.paths_eq (h : g.Registered) (name : String) :
    g.paths name = .ok (g.ways name) := by
  have hpath : ∀ other ∈ [name], g.levelOf name ≤ g.levelOf other :=
    List.forall_mem_singleton.mpr (Nat.le_refl _)
  rw [paths, pathsWithin_eq (fun _ _ => h.levelOf_lt) hpath]
  simp [ways]

theorem Registered.nodup_ways (h : g.Registered) (name : String) : (g.ways name).Nodup :=
  nodup_waysWithin h.parentsOf_nodup _ _

/-- The enumeration has all ways. -/
theorem Registered.mem_ways_iff (h : g.Registered) {e : Entity} (he : e ∈ g.entities)
    {way : List String} : way ∈ g.ways e.name ↔ RootWay g.parentsOf e.name way := by
  refine mem_waysWithin_iff.trans (and_iff_left_of_imp fun hway => ?_)
  have hlength := h.length_lt_level he hway
  have hlevel := h.level_le_size e he
  omega

/-- A way is in the order of levels already. -/
theorem Registered.byLevel_eq (h : g.Registered) {name : String} {way : List String}
    (hway : RootWay g.parentsOf name way) : g.byLevel way = way := by
  have hfalls := (List.pairwise_cons.mp (hway.falls fun _ _ => h.levelOf_lt)).2
  exact List.mergeSort_of_pairwise (hfalls.imp fun hfall => decide_eq_true (Nat.le_of_lt hfall))

end

end AccessMatrix.Graph
