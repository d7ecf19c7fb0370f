import AccessMatrix.Proofs.Hierarchy.Branches
import AccessMatrix.Proofs.Tables
import Mathlib.Data.List.Perm.Subperm

/-!
# Forests as nested dictionaries

A forest is a dictionary of trees by name, and what stands below a name is a dictionary again. Two of
them are equal if they have as many names and each name of the first is found in the second, with equal
dictionaries below; the order of the names has no part in it. This is to have the same branches. So the
forest of some relationships, whose branches are the beginnings of those called for, is the same
dictionary in whatever order they come.
-/

namespace AccessMatrix.Forest

/-- Whether each name on top of a forest is found on top of another one with an equal dictionary
below. -/
def foundIn : Forest → Forest → Bool
  | nil, _ => true
  | cons name below rest, other =>
    ((Table.get? other.trees name).any fun lower =>
      below.trees.length == lower.trees.length && below.foundIn lower) && rest.foundIn other

/-- Whether two forests are equal as nested dictionaries. -/
def sameAs (forest other : Forest) : Bool :=
  forest.trees.length == other.trees.length && forest.foundIn other

/-- What holds of a forest if it does of what stands below its top names holds of every forest. -/
theorem induction_trees {motive : Forest → Prop}
    (step : ∀ forest, (∀ entry ∈ forest.trees, motive entry.2) → motive forest)
    (forest : Forest) : motive forest := by
  refine step forest ?_
  induction forest with
  | nil => exact fun _ hentry => absurd hentry List.not_mem_nil
  | cons name below rest ihBelow ihRest =>
    exact List.forall_mem_cons.mpr ⟨step below ihBelow, ihRest⟩

/-- The trees of a forest are found in another one, each under its name. -/
theorem foundIn_iff {forest other : Forest} :
    forest.foundIn other = true ↔ ∀ entry ∈ forest.trees,
      ∃ lower, Table.get? other.trees entry.1 = some lower ∧ entry.2.sameAs lower = true := by
  induction forest with
  | nil => simp [foundIn, trees]
  | cons name below rest _ ih =>
    have hstep : (cons name below rest).foundIn other =
        ((Table.get? other.trees name).any below.sameAs && rest.foundIn other) := rfl
    rw [hstep, Bool.and_eq_true, ih, Option.any_eq_true, trees, List.forall_mem_cons]

/-- A branch goes down in one of the trees, from its name. -/
theorem mem_branches_iff {forest : Forest} {path : List String} :
    path ∈ forest.branches ↔ ∃ entry ∈ forest.trees,
      ∃ lower, path = entry.1 :: lower ∧ (lower = [] ∨ lower ∈ entry.2.branches) := by
  induction forest with
  | nil => simp [branches, trees]
  | cons name below rest _ ih => rw [mem_branches_cons, ih, trees, List.exists_mem_cons_iff]

/-- A name ends a branch of its own exactly if it stands on top. -/
theorem singleton_mem_branches_iff {forest : Forest} {name : String} :
    [name] ∈ forest.branches ↔ name ∈ forest.trees.map Prod.fst := by
  rw [mem_branches_iff, List.mem_map]
  refine exists_congr fun entry => and_congr_right fun _ => ?_
  constructor
  · rintro ⟨lower, hpath, -⟩
    exact (List.cons.inj hpath).1.symm
  · rintro rfl
    exact ⟨[], rfl, .inl rfl⟩

/-- No two names end the same branch exactly if the names on top are told apart, and none do below
any of these. -/
theorem nodup_branches_iff {forest : Forest} :
    forest.branches.Nodup ↔
      (forest.trees.map Prod.fst).Nodup ∧ ∀ entry ∈ forest.trees, entry.2.branches.Nodup := by
  induction forest with
  | nil => simp [branches, trees]
  | cons name below rest _ ih =>
    rw [nodup_branches_cons, ih, singleton_mem_branches_iff, trees, List.map_cons, List.nodup_cons,
      List.forall_mem_cons]
    tauto

/-- Where names are told apart, the branches from a name on top are those of what stands below it. -/
theorem cons_mem_branches_iff {forest below : Forest} (h : forest.branches.Nodup) {name : String}
    (hbelow : Table.get? forest.trees name = some below) {lower : List String} :
    name :: lower ∈ forest.branches ↔ lower = [] ∨ lower ∈ below.branches := by
  rw [mem_branches_iff]
  constructor
  · rintro ⟨entry, hentry, rest, hpath, hrest⟩
    obtain ⟨rfl, rfl⟩ := List.cons.inj hpath
    obtain rfl : entry.2 = below := by
      have hfound := Table.get?_of_mem (nodup_branches_iff.mp h).1 hentry
      exact Option.some.inj (hfound.symm.trans hbelow)
    exact hrest
  · exact fun hlower => ⟨(name, below), Table.mem_of_get? hbelow, lower, rfl, hlower⟩

/-- Forests have the same branches exactly if the same names stand on top and the branches from each of
them are the same. -/
theorem same_branches_iff {forest other : Forest} :
    (∀ path, path ∈ forest.branches ↔ path ∈ other.branches) ↔
      (∀ name, name ∈ forest.trees.map Prod.fst ↔ name ∈ other.trees.map Prod.fst) ∧
        ∀ entry ∈ forest.trees, ∀ lower,
          entry.1 :: lower ∈ forest.branches ↔ entry.1 :: lower ∈ other.branches := by
  simp only [← singleton_mem_branches_iff]
  constructor
  · exact fun h => ⟨fun name => h [name], fun entry _ lower => h (entry.1 :: lower)⟩
  · rintro ⟨htops, hbelow⟩ path
    cases path with
    | nil => exact iff_of_false (nil_notMem_branches forest) (nil_notMem_branches other)
    | cons name lower =>
      by_cases htop : [name] ∈ forest.branches
      · obtain ⟨entry, hentry, rfl⟩ := List.mem_map.mp (singleton_mem_branches_iff.mp htop)
        exact hbelow entry hentry lower
      · exact iff_of_false (fun h => htop (top_mem_branches h))
          fun h => htop ((htops name).mpr (top_mem_branches h))

/-- Lists in which nothing stands twice have the same members exactly if they are as long and one is
contained in the other. -/
theorem same_members_iff {names names' : List String} (h : names.Nodup) (h' : names'.Nodup) :
    (∀ name, name ∈ names ↔ name ∈ names') ↔ names.length = names'.length ∧ names ⊆ names' := by
  constructor
  · intro hsame
    exact ⟨((List.perm_ext_iff_of_nodup h h').mpr hsame).length_eq, fun name => (hsame name).mp⟩
  · rintro ⟨hlength, hsubset⟩ name
    exact ((List.subperm_of_subset h hsubset).perm_of_length_le (Nat.le_of_eq hlength.symm)).mem_iff

/-- Forests in which names are told apart are equal as dictionaries exactly if they have the same
branches. -/
theorem sameAs_iff {forest other : Forest} (hforest : forest.branches.Nodup)
    (hother : other.branches.Nodup) :
    forest.sameAs other = true ↔ ∀ path, path ∈ forest.branches ↔ path ∈ other.branches := by
  induction forest using induction_trees generalizing other with
  | step forest ih =>
    obtain ⟨hnames, hbelow⟩ := nodup_branches_iff.mp hforest
    obtain ⟨hnames', hbelow'⟩ := nodup_branches_iff.mp hother
    -- trees under the same name are equal if the branches from it are the same
    have hsame {entry : String × Forest} (hentry : entry ∈ forest.trees) {lower : Forest}
        (hlower : Table.get? other.trees entry.1 = some lower) :
        entry.2.sameAs lower = true ↔
          ∀ path, entry.1 :: path ∈ forest.branches ↔ entry.1 :: path ∈ other.branches := by
      have hnodup : lower.branches.Nodup := hbelow' _ (Table.mem_of_get? hlower)
      rw [ih entry hentry (hbelow entry hentry) hnodup]
      refine forall_congr' fun path => ?_
      rw [cons_mem_branches_iff hforest (Table.get?_of_mem hnames hentry),
        cons_mem_branches_iff hother hlower]
      rcases eq_or_ne path [] with rfl | hpath
      · simp [nil_notMem_branches]
      · simp [hpath]
    rw [sameAs, Bool.and_eq_true, beq_iff_eq, foundIn_iff, same_branches_iff,
      same_members_iff hnames hnames', List.length_map, List.length_map, and_assoc]
    refine and_congr_right fun _ => ⟨fun hfound => ⟨?_, fun entry hentry => ?_⟩, ?_⟩
    · refine List.forall_mem_map.mpr fun entry hentry => ?_
      obtain ⟨lower, hlower, -⟩ := hfound entry hentry
      exact List.mem_map.mpr ⟨_, Table.mem_of_get? hlower, rfl⟩
    · obtain ⟨lower, hlower, hequal⟩ := hfound entry hentry
      exact (hsame hentry hlower).mp hequal
    · rintro ⟨hsubset, hbranches⟩ entry hentry
      obtain ⟨⟨name, lower⟩, hmem, rfl⟩ := List.mem_map.mp (hsubset (List.mem_map_of_mem hentry))
      have hlower := Table.get?_of_mem hnames' hmem
      exact ⟨lower, hlower, (hsame hentry hlower).mpr (hbranches entry hentry)⟩

/-- The branches of the forest of some relationships are the beginnings of ways down to their names. -/
theorem mem_branches_iff_ways {relationships : List Relationship} {path : List String} :
    path ∈ (ofRelationships relationships).branches ↔
      path ≠ [] ∧ ∃ r ∈ relationships, ∃ way ∈ r.ways, path <+: way.reverse ++ [r.name] := by
  rw [mem_branches_ofRelationships, called]
  refine and_congr_right fun _ => ?_
  constructor
  · rintro ⟨names, hnames, hpath⟩
    obtain ⟨r, hr, hnames⟩ := List.mem_flatMap.mp hnames
    obtain ⟨way, hway, rfl⟩ := List.mem_map.mp hnames
    exact ⟨r, hr, way, hway, hpath⟩
  · rintro ⟨r, hr, way, hway, hpath⟩
    exact ⟨_, List.mem_flatMap.mpr ⟨r, hr, List.mem_map_of_mem hway⟩, hpath⟩

/-- The forest of relationships is the dictionary of the beginnings that they call for. Its branches
are the beginnings, not empty, of a way down to a name that one of the relationships tells, and no
name stands twice in one place. So the relationships make an equal dictionary in whatever order they
come, and what was built for the first ones stays in it. -/
theorem ofRelationships_prefix_tree (relationships : List Relationship) :
    let forest := ofRelationships relationships
    (∀ path, path ∈ forest.branches ↔ path ≠ [] ∧
      ∃ r ∈ relationships, ∃ way ∈ r.ways, path <+: way.reverse ++ [r.name]) ∧
    forest.branches.Nodup ∧
    (∀ reordered, relationships.Perm reordered →
      (ofRelationships reordered).sameAs forest = true) ∧
    (∀ earlier later, relationships = earlier ++ later →
      (ofRelationships earlier).branches ⊆ forest.branches) := by
  intro forest
  refine ⟨fun _ => mem_branches_iff_ways, nodup_branches_ofRelationships relationships,
    fun reordered hperm => ?_, fun earlier later hsplit path hpath => ?_⟩
  · refine (sameAs_iff (nodup_branches_ofRelationships _) (nodup_branches_ofRelationships _)).mpr
      fun path => ?_
    simp only [mem_branches_iff_ways, hperm.mem_iff]
  · obtain ⟨hne, r, hr, hway⟩ := mem_branches_iff_ways.mp hpath
    exact mem_branches_iff_ways.mpr ⟨hne, r, hsplit ▸ List.mem_append_left later hr, hway⟩

/-- The plants of a company stand in the order in which they come, and the dictionary is the same. -/
example :
    let south : Relationship := ⟨"south", [["company"]], []⟩
    let north : Relationship := ⟨"north", [], ["company"]⟩
    ofRelationships [south, north] ≠ ofRelationships [north, south] ∧
      (ofRelationships [south, north]).sameAs (ofRelationships [north, south]) = true := by
  decide

end AccessMatrix.Forest
