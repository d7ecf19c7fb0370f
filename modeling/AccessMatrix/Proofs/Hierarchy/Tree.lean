import AccessMatrix.Proofs.Graph.Ways
import AccessMatrix.Proofs.Hierarchy.Rows

/-!
# The displayed tree

The view of a graph made by registration shows every entity once for each of its ways up to a root.
The relationships hold these ways in the order of the enumeration, since levels fall along them; the
forest of the relationships has them as branches, since what a way has above one of its names is a
way again; and each branch is spelled from one row.
-/

namespace AccessMatrix

/-- A row shows an entity at the end of a way: it has the name of the entity, and following the rows
above it upward spells the way. -/
structure Row.Shows (rows : List Row) (row : Row) (name : String) (way : List String) : Prop where
  name_eq : row.name = name
  leads : Leads rows row.parent? way

/-- A row that ends a branch shows its last name at the end of the way above it. -/
theorem Row.ends_iff_shows {rows : List Row} {row : Row} {name : String} {way : List String} :
    row.Ends rows (way.reverse ++ [name]) ↔
      row.Shows rows name way ∧ row.level = way.length + 1 := by
  constructor
  · rintro ⟨⟨way', hway, hspelled⟩, hlevel⟩
    obtain ⟨hreverse, hname⟩ := List.append_inj' hspelled rfl
    obtain rfl := List.reverse_injective hreverse
    exact ⟨⟨(List.cons.inj hname).1.symm, hway⟩, by simpa using hlevel⟩
  · rintro ⟨⟨rfl, hway⟩, hlevel⟩
    exact ⟨⟨way, hway, rfl⟩, by simpa using hlevel⟩

namespace Graph

/-- What the display keeps of the ancestry of an entity. -/
def relationshipOf (g : Graph) (e : Entity) : Relationship where
  name := e.name
  paths := g.ways e.name
  ancestors := e.nearestFirst.filter e.required.contains

/-- The forest that the display of a graph shows. -/
def forest (g : Graph) : Forest := .ofRelationships (g.entities.map g.relationshipOf)

/-- Some rows show every entity of a graph once for each of its ways up to a root, and nothing else.
Their numbers tell them apart, so there is one way only to follow them upward. An entity is on as many
rows as the enumeration of its paths has ways, and its level is the greatest among them. -/
structure ShownBy (g : Graph) (rows : List Row) : Prop where
  nodup_numbers : (rows.map Row.number).Nodup
  one_row : ∀ e ∈ g.entities, ∀ way, RootWay g.parentsOf e.name way →
    ∃! row, row ∈ rows ∧ row.Shows rows e.name way
  level_eq : ∀ row ∈ rows, ∀ name way, row.Shows rows name way → row.level = way.length + 1
  shown : ∀ row ∈ rows, ∃ e ∈ g.entities, ∃ way,
    RootWay g.parentsOf e.name way ∧ row.Shows rows e.name way
  count : ∀ e ∈ g.entities, ∃ ways, g.paths e.name = .ok ways ∧ ways.Nodup ∧
    (∀ way, way ∈ ways ↔ RootWay g.parentsOf e.name way) ∧
      (rows.map Row.name).count e.name = ways.length
  level_le : ∀ e ∈ g.entities, ∀ row ∈ rows, row.name = e.name → row.level ≤ e.level
  level_attained : ∀ e ∈ g.entities, ∃ row ∈ rows, row.name = e.name ∧ row.level = e.level

section

variable {g : Graph}

/-- The ancestry of a registered entity is found, with its ways as they were enumerated. -/
theorem Registered.relationship_eq (h : g.Registered) {e : Entity} (he : e ∈ g.entities) :
    g.relationship e = .ok (g.relationshipOf e) := by
  have hsorted : (g.ways e.name).map g.byLevel = g.ways e.name := by
    refine (List.map_congr_left fun way hway => ?_).trans (List.map_id _)
    exact h.byLevel_eq ((h.mem_ways_iff he).mp hway)
  rw [relationship, h.paths_eq]
  change Except.ok _ = _
  rw [hsorted]
  rfl

/-- The view of a graph made by registration. -/
theorem Registered.ofGraph_eq (h : g.Registered) :
    View.ofGraph g = .ok
      { entities := g.entities, relationships := g.entities.map g.relationshipOf,
        forest := g.forest, rows := g.forest.rows none } := by
  rw [View.ofGraph, Outcome.mapM_eq_ok fun e he => h.relationship_eq he]
  rfl

/-- Every registered entity has a way, so the branches that it calls for are its ways. -/
theorem Registered.ways_relationshipOf (h : g.Registered) {e : Entity} (he : e ∈ g.entities) :
    (g.relationshipOf e).ways = g.ways e.name := by
  obtain ⟨way, hway, -⟩ := h.exists_longest_way he
  have hways : g.ways e.name ≠ [] := List.ne_nil_of_mem ((h.mem_ways_iff he).mpr hway)
  rw [Relationship.ways, if_neg (by simpa [relationshipOf] using hways)]
  rfl

/-- The entities call for their ways as branches, from the top down. -/
theorem Registered.mem_called_iff (h : g.Registered) {names : List String} :
    names ∈ Forest.called (g.entities.map g.relationshipOf) ↔
      ∃ e ∈ g.entities, ∃ way,
        RootWay g.parentsOf e.name way ∧ names = way.reverse ++ [e.name] := by
  constructor
  · intro hnames
    obtain ⟨r, hr, hnames⟩ := List.mem_flatMap.mp hnames
    obtain ⟨e, he, rfl⟩ := List.mem_map.mp hr
    obtain ⟨way, hway, rfl⟩ := List.mem_map.mp hnames
    rw [h.ways_relationshipOf he, h.mem_ways_iff he] at hway
    exact ⟨e, he, way, hway, rfl⟩
  · rintro ⟨e, he, way, hway, rfl⟩
    refine List.mem_flatMap.mpr ⟨_, List.mem_map_of_mem he, List.mem_map.mpr ⟨way, ?_, rfl⟩⟩
    rwa [h.ways_relationshipOf he, h.mem_ways_iff he]

/-- The branches of the displayed forest are the ways of the entities: what is above some name on a
way is a whole way of that name. -/
theorem Registered.mem_branches_forest (h : g.Registered) {branch : List String} :
    branch ∈ g.forest.branches ↔
      ∃ e ∈ g.entities, ∃ way,
        RootWay g.parentsOf e.name way ∧ branch = way.reverse ++ [e.name] := by
  rw [forest, Forest.mem_branches_ofRelationships]
  constructor
  · rintro ⟨hne, names, hnames, hbegins⟩
    obtain ⟨e, he, way, hway, rfl⟩ := h.mem_called_iff.mp hnames
    have hrest : branch.reverse <:+ e.name :: way := by
      simpa using List.reverse_suffix.mpr hbegins
    obtain ⟨other, rest, hbranch⟩ :=
      List.exists_cons_of_ne_nil (List.reverse_eq_nil_iff.not.mpr hne)
    rw [hbranch] at hrest
    have hother := h.forall_mem_way (List.mem_map_of_mem he) hway other
      (hrest.subset List.mem_cons_self)
    obtain ⟨f, hf, rfl⟩ := mem_names.mp hother
    refine ⟨f, hf, rest, hway.goes_on hrest, ?_⟩
    rw [← List.reverse_reverse branch, hbranch, List.reverse_cons]
  · rintro ⟨e, he, way, hway, rfl⟩
    exact ⟨by simp, _, h.mem_called_iff.mpr ⟨e, he, way, hway, rfl⟩, List.prefix_refl _⟩

theorem nodup_branches_forest (g : Graph) : g.forest.branches.Nodup :=
  Forest.nodup_branches_ofRelationships _

/-- An entity ends as many branches of the displayed forest as it has ways. -/
theorem Registered.length_branches_of_name (h : g.Registered) {e : Entity}
    (he : e ∈ g.entities) :
    (g.forest.branches.filter fun branch => branch.getLast? = some e.name).length =
      (g.ways e.name).length := by
  have hnodup : ((g.ways e.name).map fun way => way.reverse ++ [e.name]).Nodup :=
    (h.nodup_ways e.name).map fun _ _ hsame =>
      List.reverse_injective (List.append_cancel_right hsame)
  refine ((List.perm_ext_iff_of_nodup (g.nodup_branches_forest.filter _) hnodup).mpr
    fun branch => ?_).length_eq.trans (List.length_map _)
  rw [List.mem_filter, h.mem_branches_forest, List.mem_map]
  constructor
  · rintro ⟨⟨f, -, way, hway, rfl⟩, hlast⟩
    have hname : f.name = e.name := by simpa using hlast
    exact ⟨way, (h.mem_ways_iff he).mpr (hname ▸ hway), by rw [hname]⟩
  · rintro ⟨way, hway, rfl⟩
    exact ⟨⟨e, he, way, (h.mem_ways_iff he).mp hway, rfl⟩, by simp⟩

/-- A row of the displayed forest shows an entity at the end of one of its ways. -/
theorem Registered.exists_shown (h : g.Registered) {row : Row} (hrow : row ∈ g.forest.rows none) :
    ∃ e ∈ g.entities, ∃ way, RootWay g.parentsOf e.name way ∧
      row.Shows (g.forest.rows none) e.name way ∧ row.level = way.length + 1 := by
  obtain ⟨branch, hbranch, hends⟩ := Forest.exists_branch hrow
  obtain ⟨e, he, way, hway, rfl⟩ := h.mem_branches_forest.mp hbranch
  exact ⟨e, he, way, hway, Row.ends_iff_shows.mp hends⟩

/-- A row stands one level below the names that it spells. -/
theorem Registered.level_of_shows (h : g.Registered) {row : Row}
    (hrow : row ∈ g.forest.rows none) {name : String} {way : List String}
    (hshows : row.Shows (g.forest.rows none) name way) : row.level = way.length + 1 := by
  obtain ⟨e, -, way', -, hshows', hlevel⟩ := h.exists_shown hrow
  rw [hshows.leads.unique g.forest.nodup_number_rows hshows'.leads, hlevel]

/-- Every way of an entity is shown by a row. -/
theorem Registered.exists_row (h : g.Registered) {e : Entity} (he : e ∈ g.entities)
    {way : List String} (hway : RootWay g.parentsOf e.name way) :
    ∃ row ∈ g.forest.rows none, row.Shows (g.forest.rows none) e.name way := by
  obtain ⟨row, hrow, hends⟩ :=
    Forest.exists_row (h.mem_branches_forest.mpr ⟨e, he, way, hway, rfl⟩)
  exact ⟨row, hrow, (Row.ends_iff_shows.mp hends).1⟩

/-- The rows of the displayed forest show the graph. -/
theorem Registered.shownBy_rows (h : g.Registered) : g.ShownBy (g.forest.rows none) where
  nodup_numbers := g.forest.nodup_number_rows
  one_row e he way hway := by
    obtain ⟨row, hrow, hshows⟩ := h.exists_row he hway
    refine ⟨row, ⟨hrow, hshows⟩, fun row' ⟨hrow', hshows'⟩ => ?_⟩
    have hends := Row.ends_iff_shows.mpr ⟨hshows, h.level_of_shows hrow hshows⟩
    have hends' := Row.ends_iff_shows.mpr ⟨hshows', h.level_of_shows hrow' hshows'⟩
    exact Forest.row_unique g.nodup_branches_forest hrow' hrow hends' hends
  level_eq row hrow name way hshows := h.level_of_shows hrow hshows
  shown row hrow := by
    obtain ⟨e, he, way, hway, hshows, -⟩ := h.exists_shown hrow
    exact ⟨e, he, way, hway, hshows⟩
  count e he := by
    refine ⟨g.ways e.name, h.paths_eq e.name, h.nodup_ways e.name, fun way => h.mem_ways_iff he, ?_⟩
    rw [Forest.count_name_rows, h.length_branches_of_name he]
  level_le e he row hrow hname := by
    obtain ⟨f, -, way, hway, hshows, hlevel⟩ := h.exists_shown hrow
    have hlength := h.length_lt_level he (hname ▸ hshows.name_eq ▸ hway)
    omega
  level_attained e he := by
    obtain ⟨way, hway, hlength⟩ := h.exists_longest_way he
    obtain ⟨row, hrow, hshows⟩ := h.exists_row he hway
    have hlevel := h.level_of_shows hrow hshows
    exact ⟨row, hrow, hshows.name_eq, by omega⟩

/-- The view of a graph made by registration succeeds, and its rows show every entity once for each
of its ways up to a root. -/
theorem view_shows_ways (h : g.Registered) :
    ∃ view, View.ofGraph g = .ok view ∧ g.ShownBy view.rows :=
  ⟨_, h.ofGraph_eq, h.shownBy_rows⟩

end

/-- Works with a plant, and a union; a crew of the plant, the union and the works themselves. -/
def crewRegistrations : List Registration :=
  [{ kind := .context, name := .text "works" }, { kind := .context, name := .text "union" },
    { kind := .context, name := .text "plant", parents := .each [.own "works"] },
    { kind := .plain, name := .text "crew",
      parents := .each [.own "plant", .own "union", .own "works"] }]

/-- The crew has a row under the plant, one under the union and one under the works. -/
theorem view_shows_ways_crew :
    let g := (Graph.registerAll {} crewRegistrations).getD {}
    Graph.registerAll {} crewRegistrations = some g ∧
      ∃ view, View.ofGraph g = .ok view ∧ g.ShownBy view.rows ∧
        g.paths "crew" = .ok [["plant", "works"], ["union"], ["works"]] ∧
        (view.rows.map Row.name).count "crew" = 3 := by
  intro g
  have hg : Graph.registerAll {} crewRegistrations = some g :=
    (Option.getD_of_ne_none (by decide +kernel) _).symm
  have hpaths : g.paths "crew" = .ok [["plant", "works"], ["union"], ["works"]] := by
    decide +kernel
  obtain ⟨view, hview, hshown⟩ := view_shows_ways (Registered.empty.registerAll hg)
  have hcrew : "crew" ∈ g.names := by decide +kernel
  obtain ⟨crew, hmem, hname⟩ := mem_names.mp hcrew
  obtain ⟨ways, hways, -, -, hcount⟩ := hshown.count crew hmem
  rw [hname, hpaths] at hways
  obtain rfl := Except.ok.inj hways
  exact ⟨hg, view, hview, hshown, hpaths, hname ▸ hcount⟩

end Graph

end AccessMatrix
