import AccessMatrix.Hierarchy.View
import Mathlib.Data.List.Nodup

/-!
# Branches of a forest

Every name in a forest ends a branch, the names from the top down to it. Adding a branch adds all
its beginnings and loses nothing, and no two names end the same branch. So a forest that was put
together from branches is known by them.
-/

namespace AccessMatrix

namespace Forest

/-- The branches of a forest, one for each name in it. A branch stands after those that go on from
it. -/
def branches : Forest → List (List String)
  | nil => []
  | cons name below rest => below.branches.map (name :: ·) ++ [name] :: rest.branches

theorem mem_branches_cons {name : String} {below rest : Forest} {path : List String} :
    path ∈ (cons name below rest).branches ↔
      (∃ lower, path = name :: lower ∧ (lower = [] ∨ lower ∈ below.branches)) ∨
        path ∈ rest.branches := by
  rw [branches, List.mem_append, List.mem_map, List.mem_cons, ← or_assoc]
  refine or_congr_left ⟨?_, ?_⟩
  · rintro (⟨lower, hlower, rfl⟩ | rfl)
    · exact ⟨lower, rfl, .inr hlower⟩
    · exact ⟨[], rfl, .inl rfl⟩
  · rintro ⟨lower, rfl, rfl | hlower⟩
    · exact .inr rfl
    · exact .inl ⟨lower, hlower, rfl⟩

/-- The topmost name of a branch ends one. -/
theorem top_mem_branches {forest : Forest} {name : String} {lower : List String}
    (h : name :: lower ∈ forest.branches) : [name] ∈ forest.branches := by
  induction forest with
  | nil => exact absurd h List.not_mem_nil
  | cons top below rest _ ih =>
    rw [mem_branches_cons] at h ⊢
    rcases h with ⟨lower', hpath, -⟩ | h
    · exact .inl ⟨[], by rw [(List.cons.inj hpath).1], .inl rfl⟩
    · exact .inr (ih h)

theorem nil_notMem_branches (forest : Forest) : [] ∉ forest.branches := by
  induction forest with
  | nil => exact List.not_mem_nil
  | cons top below rest _ ih => simp [mem_branches_cons, ih]

/-- No two names end the same branch if no two below the first name or after it do, and no other
tree has that name on top. -/
theorem nodup_branches_cons {name : String} {below rest : Forest} :
    (cons name below rest).branches.Nodup ↔
      below.branches.Nodup ∧ rest.branches.Nodup ∧ [name] ∉ rest.branches := by
  rw [branches, List.nodup_append, List.nodup_cons, List.nodup_map_iff List.cons_injective]
  refine and_congr_right fun _ => ⟨fun h => ⟨h.1.2, h.1.1⟩, fun h => ⟨⟨h.2, h.1⟩, ?_⟩⟩
  intro _ hlower path hpath hsame
  obtain ⟨lower, hmem, rfl⟩ := List.mem_map.mp hlower
  subst hsame
  rcases List.mem_cons.mp hpath with hpath | hpath
  · obtain rfl : lower = [] := (List.cons.inj hpath).2
    exact nil_notMem_branches below hmem
  · exact h.2 (top_mem_branches hpath)

/-- A beginning of a branch is its topmost name and a beginning of what follows it. -/
theorem begins_cons_iff {name : String} {names path : List String} :
    path ≠ [] ∧ path <+: name :: names ↔ ∃ lower, path = name :: lower ∧ lower <+: names := by
  rw [List.prefix_cons_iff]
  constructor
  · rintro ⟨hpath, rfl | hlower⟩
    · exact absurd rfl hpath
    · exact hlower
  · rintro ⟨lower, rfl, hlower⟩
    exact ⟨List.cons_ne_nil _ _, .inr ⟨lower, rfl, hlower⟩⟩

/-- What is grown for a branch has its beginnings. -/
theorem mem_branches_branch {names path : List String} :
    path ∈ (branch names).branches ↔ path ≠ [] ∧ path <+: names := by
  induction names generalizing path with
  | nil => simp [branch, branches]
  | cons name names ih =>
    rw [branch, mem_branches_cons, begins_cons_iff]
    simp only [ih, branches, List.not_mem_nil, or_false]
    refine exists_congr fun lower => and_congr_right fun _ => ?_
    constructor
    · rintro (rfl | ⟨-, hlower⟩)
      · exact List.nil_prefix
      · exact hlower
    · exact fun hlower => or_iff_not_imp_left.mpr fun hne => ⟨hne, hlower⟩

theorem nodup_branches_branch (names : List String) : (branch names).branches.Nodup := by
  induction names with
  | nil => exact List.nodup_nil
  | cons name names ih => exact nodup_branches_cons.mpr ⟨ih, List.nodup_nil, List.not_mem_nil⟩

/-- Adding a branch adds its beginnings and loses nothing. -/
theorem mem_branches_add {forest : Forest} {names path : List String} :
    path ∈ (forest.add names).branches ↔ path ∈ forest.branches ∨ path ≠ [] ∧ path <+: names := by
  fun_induction add forest names generalizing path with
  | case1 forest => simp
  | case2 names => rw [mem_branches_branch]; simp [branches]
  | case3 below rest name names ih =>
    simp only [mem_branches_cons, begins_cons_iff, ih]
    grind
  | case4 top below rest name names hne ih =>
    rw [mem_branches_cons, ih, mem_branches_cons, or_assoc]

/-- Adding a branch makes no two names end the same one. -/
theorem nodup_branches_add {forest : Forest} {names : List String} (h : forest.branches.Nodup) :
    (forest.add names).branches.Nodup := by
  fun_induction add forest names with
  | case1 forest => exact h
  | case2 names => exact nodup_branches_branch names
  | case3 below rest name names ih =>
    obtain ⟨hbelow, hrest, hname⟩ := nodup_branches_cons.mp h
    exact nodup_branches_cons.mpr ⟨ih hbelow, hrest, hname⟩
  | case4 top below rest name names hne ih =>
    obtain ⟨hbelow, hrest, htop⟩ := nodup_branches_cons.mp h
    refine nodup_branches_cons.mpr ⟨hbelow, ih hrest, fun hadded => ?_⟩
    rcases mem_branches_add.mp hadded with hold | ⟨-, hnew⟩
    · exact htop hold
    · exact hne (List.cons_prefix_cons.mp hnew).1

end Forest

/-- The ways of a relationship up to the top. -/
def Relationship.ways (r : Relationship) : List (List String) :=
  if r.paths.isEmpty then [r.ancestors] else r.paths

namespace Forest

/-- The branches that some relationships call for, from the top down. -/
def called (relationships : List Relationship) : List (List String) :=
  relationships.flatMap fun r => r.ways.map fun way => way.reverse ++ [r.name]

theorem ofRelationships_eq (relationships : List Relationship) :
    ofRelationships relationships = (called relationships).foldl add nil := by
  rw [ofRelationships, called, List.foldl_flatMap]
  simp only [List.foldl_map]
  rfl

/-- Adding branches adds their beginnings and loses nothing. -/
theorem mem_branches_foldl_add {forest : Forest} {added : List (List String)}
    {path : List String} :
    path ∈ (added.foldl add forest).branches ↔
      path ∈ forest.branches ∨ path ≠ [] ∧ ∃ names ∈ added, path <+: names := by
  induction added generalizing forest with
  | nil => simp
  | cons names rest ih =>
    rw [List.foldl_cons, ih, mem_branches_add, or_assoc, ← and_or_left, List.exists_mem_cons_iff]

theorem nodup_branches_foldl_add {forest : Forest} (h : forest.branches.Nodup)
    (added : List (List String)) : (added.foldl add forest).branches.Nodup := by
  induction added generalizing forest with
  | nil => exact h
  | cons names rest ih => exact ih (nodup_branches_add h)

/-- The forest of some relationships has the beginnings of the branches that they call for. -/
theorem mem_branches_ofRelationships {relationships : List Relationship} {path : List String} :
    path ∈ (ofRelationships relationships).branches ↔
      path ≠ [] ∧ ∃ names ∈ called relationships, path <+: names := by
  rw [ofRelationships_eq, mem_branches_foldl_add]
  simp [branches]

theorem nodup_branches_ofRelationships (relationships : List Relationship) :
    (ofRelationships relationships).branches.Nodup := by
  have hnil : nil.branches.Nodup := List.nodup_nil
  rw [ofRelationships_eq]
  exact nodup_branches_foldl_add hnil _

end Forest

end AccessMatrix
