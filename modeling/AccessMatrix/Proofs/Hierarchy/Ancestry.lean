import AccessMatrix.Proofs.Graph.PathSearch
import AccessMatrix.Proofs.Graph.RegistrationOrder
import AccessMatrix.Proofs.Hierarchy.Tree

/-!
# The ancestry that is displayed

What an entity requires is kept step by step: a parent, or what the parent requires, and so for every
parent. In a graph made by registration this is what stands on every way from the entity up to a root.
Levels fall along a way, so the ancestors that are required come in one order, the one in which each
way meets them, and the ways themselves are in the order of levels as they were found.
-/

namespace AccessMatrix.Graph

/-- A name stands on every way from another one up to a root. -/
def OnEveryWay (parentsOf : String → List String) (name other : String) : Prop :=
  ∀ way, RootWay parentsOf name way → other ∈ way

/-- A relationship tells the ancestry of an entity: its paths are those that the search finds, which
are in the order of levels already and come in the order of choice. Its ancestors are what stands on
every path, in the order in which each path meets them, and this is what the entity requires. -/
structure Describes (g : Graph) (e : Entity) (r : Relationship) : Prop where
  name_eq : r.name = e.name
  paths_eq : g.paths e.name = .ok r.paths
  byLevel_eq : ∀ way ∈ r.paths, g.byLevel way = way
  inOrder : InOrderOfChoice g.parentsOf e.name r.paths
  mem_ancestors : ∀ name, name ∈ r.ancestors ↔ ∀ way ∈ r.paths, name ∈ way
  ancestors_eq : ∀ way ∈ r.paths,
    r.ancestors = way.filter fun name => r.paths.all fun other => other.contains name
  mem_required : ∀ name, name ∈ e.required ↔ ∀ way ∈ r.paths, name ∈ way
  required_root : e.parents = [] → e.required = []

section

variable {parentsOf : String → List String}

/-- Nothing stands on every way from a root. -/
theorem not_onEveryWay_of_parentless {name other : String} (h : parentsOf name = []) :
    ¬ OnEveryWay parentsOf name other :=
  fun hevery => List.not_mem_nil (hevery [] (.root h))

/-- What stands on every way is on each way's first step or on every way from there. -/
theorem onEveryWay_iff {name other : String} (h : parentsOf name ≠ []) :
    OnEveryWay parentsOf name other ↔
      ∀ parent ∈ parentsOf name, parent = other ∨ OnEveryWay parentsOf parent other := by
  constructor
  · intro hevery parent hlink
    refine or_iff_not_imp_left.mpr fun hne way hway => ?_
    exact (List.mem_cons.mp (hevery _ (.up hlink hway))).resolve_left (Ne.symm hne)
  · intro hparents way hway
    cases hway with
    | root hroot => exact absurd hroot h
    | up hlink hway =>
      rcases hparents _ hlink with rfl | hevery
      · exact List.mem_cons_self
      · exact List.mem_cons_of_mem _ (hevery _ hway)

/-- What stands on every way stands above, if there is a way. -/
theorem OnEveryWay.above {name other : String} (h : OnEveryWay parentsOf name other)
    (hends : Ends parentsOf name) : Relation.TransGen (Link parentsOf) name other := by
  obtain ⟨way, hway⟩ := hends.exists_rootWay
  exact hends.above_iff.mpr ⟨way, hway, h way hway⟩

end

section

variable {g : Graph}

/-- An entity requires what stands on each of its ways up to a root. -/
theorem Registered.mem_required_iff (h : g.Registered) {e : Entity} (he : e ∈ g.entities)
    (name : String) : name ∈ e.required ↔ OnEveryWay g.parentsOf e.name name := by
  generalize hself : e.name = self
  -- by induction up the parent links, since what is required is taken over from the parents
  induction h.ends self generalizing e with
  | intro self _ ih =>
    subst hself
    rw [(h.derived e he).mem_required, h.mem_ancestors_iff he]
    have hlinks : g.parentsOf e.name = e.parents := h.parentsOf_name he
    by_cases hroot : e.parents = []
    · rw [← hlinks] at hroot
      refine iff_of_false (fun habove => ?_) (not_onEveryWay_of_parentless hroot)
      obtain ⟨parent, hlink, -⟩ := Relation.TransGen.head'_iff.mp habove.1
      exact absurd hroot (List.ne_nil_of_mem hlink)
    · have hstep : ∀ parent ∈ e.parents,
          (name ∈ g.requiredOf parent ↔ OnEveryWay g.parentsOf parent name) := by
        intro parent hparent
        have hlink : Link g.parentsOf e.name parent := by rwa [Link, hlinks]
        obtain ⟨above, habove, rfl⟩ := mem_names.mp ((h.related e he).parents_mem parent hparent)
        rw [requiredOf_of_find? (h.find?_name habove)]
        exact ih above.name hlink habove rfl
      have hparents : g.parentsOf e.name ≠ [] := by rwa [hlinks]
      calc g.Above e.name name ∧ ∀ parent ∈ e.parents, parent = name ∨ name ∈ g.requiredOf parent
        _ ↔ g.Above e.name name ∧ OnEveryWay g.parentsOf e.name name := by
          rw [onEveryWay_iff hparents, hlinks]
          exact and_congr_right fun _ =>
            forall₂_congr fun parent hparent => or_congr_right (hstep parent hparent)
        _ ↔ OnEveryWay g.parentsOf e.name name :=
          and_iff_right_of_imp fun hevery => hevery.above (h.ends e.name)

/-- Each way meets the required ancestors in the order in which they are listed. -/
theorem Registered.filter_required_eq (h : g.Registered) {e : Entity} (he : e ∈ g.entities)
    {way : List String} (hway : RootWay g.parentsOf e.name way) :
    e.nearestFirst.filter e.required.contains = way.filter e.required.contains := by
  have hfalls := (List.pairwise_cons.mp (hway.falls fun _ _ => h.levelOf_lt)).2
  have hnodup : way.Nodup := hfalls.imp fun hlevel hsame => by simp [hsame] at hlevel
  have hsorted : way.Pairwise g.Nearer := hfalls.imp .inl
  have hmem (name : String) :
      name ∈ e.nearestFirst.filter e.required.contains ↔ name ∈ way.filter e.required.contains := by
    simp only [List.mem_filter, List.contains_iff_mem]
    refine and_congr_left fun hrequired => iff_of_true ?_ ?_
    · exact ((h.related e he).mem_nearestFirst name).mpr
        (((h.derived e he).mem_required name).mp hrequired).1
    · exact (h.mem_required_iff he name).mp hrequired way hway
  have hperm := (List.perm_ext_iff_of_nodup ((h.ranked e he).nodup.filter _)
    (hnodup.filter e.required.contains)).mpr hmem
  exact hperm.eq_of_pairwise (fun _ _ _ _ => Nearer.antisymm) ((h.derived e he).sorted.filter _)
    (hsorted.filter _)

/-- The relationship of a registered entity tells its ancestry. -/
theorem Registered.describes (h : g.Registered) {e : Entity} (he : e ∈ g.entities) :
    g.Describes e (g.relationshipOf e) := by
  have hways : ∀ way, way ∈ g.ways e.name ↔ RootWay g.parentsOf e.name way := fun _ =>
    h.mem_ways_iff he
  have hrequired (name : String) : name ∈ e.required ↔ ∀ way ∈ g.ways e.name, name ∈ way := by
    simp only [hways]
    exact h.mem_required_iff he name
  have hancestors : ∀ way ∈ g.ways e.name,
      (g.relationshipOf e).ancestors = way.filter e.required.contains := fun way hway =>
    h.filter_required_eq he ((hways way).mp hway)
  have hmem (name : String) : name ∈ (g.relationshipOf e).ancestors ↔ name ∈ e.required := by
    obtain ⟨way, hway⟩ := (h.ends e.name).exists_rootWay
    rw [hancestors way ((hways way).mpr hway), List.mem_filter, List.contains_iff_mem]
    exact and_iff_right_of_imp fun hname => (h.mem_required_iff he name).mp hname way hway
  refine ⟨rfl, h.paths_eq e.name, fun way hway => h.byLevel_eq ((hways way).mp hway),
    inOrderOfChoice_of_paths (h.paths_eq e.name), fun name => (hmem name).trans (hrequired name),
    fun way hway => ?_, hrequired, fun hroot => ?_⟩
  · rw [hancestors way hway]
    have hpaths : (g.relationshipOf e).paths = g.ways e.name := rfl
    refine List.filter_congr fun name _ => Bool.eq_iff_iff.mpr ?_
    simpa [hpaths] using hrequired name
  · refine List.eq_nil_iff_forall_not_mem.mpr fun name hname => ?_
    exact not_onEveryWay_of_parentless ((h.parentsOf_name he).trans hroot)
      ((h.mem_required_iff he name).mp hname)

/-- The relationships of registered entities are found, and each tells the ancestry of its entity: the
paths up to a root in the order of choice and untouched by sorting, and the ancestors that are required,
which are those on every path and come in the order of each. -/
theorem relationships_describe (h : g.Registered) {found : List Entity}
    (hfound : ∀ e ∈ found, e ∈ g.entities) :
    ∃ relationships, found.mapM g.relationship = .ok relationships ∧
      List.Forall₂ g.Describes found relationships := by
  refine ⟨found.map g.relationshipOf,
    Outcome.mapM_eq_ok fun e he => h.relationship_eq (hfound e he), ?_⟩
  rw [List.forall₂_map_right_iff, List.forall₂_same]
  exact fun e he => h.describes (hfound e he)

end

/-- Two plants of a company, a line that both of them run, and a task on the line. -/
def lineRegistrations : List Registration :=
  [{ kind := .context, name := .text "company" },
    { kind := .context, name := .text "south", parents := .each [.own "company"] },
    { kind := .context, name := .text "north", parents := .each [.own "company"] },
    { kind := .plain, name := .text "line", parents := .each [.own "south", .own "north"] },
    { kind := .product, name := .text "task", parents := .each [.own "line"] }]

/-- The task is reached by way of either plant, and requires the line and the company. -/
theorem relationships_describe_line :
    let g := (Graph.registerAll {} lineRegistrations).getD {}
    Graph.registerAll {} lineRegistrations = some g ∧
      ∃ task ∈ g.entities, ∃ r, [task].mapM g.relationship = .ok [r] ∧
        r.paths = [["line", "south", "company"], ["line", "north", "company"]] ∧
        r.ancestors = ["line", "company"] ∧
        ∀ name, name ∈ task.required ↔ name ∈ ["line", "company"] := by
  intro g
  have hg : Graph.registerAll {} lineRegistrations = some g :=
    (Option.getD_of_ne_none (by decide +kernel) _).symm
  have hpaths : g.paths "task" = .ok [["line", "south", "company"], ["line", "north", "company"]] := by
    decide +kernel
  have htask : "task" ∈ g.names := by decide +kernel
  obtain ⟨task, hmem, hname⟩ := mem_names.mp htask
  obtain ⟨relationships, hfound, hdescribes⟩ :=
    relationships_describe (Registered.empty.registerAll hg) (List.forall_mem_singleton.mpr hmem)
  cases hdescribes with
  | @cons _ r _ _ hr hnil =>
    cases hnil
    have hways : r.paths = [["line", "south", "company"], ["line", "north", "company"]] :=
      Except.ok.inj (hr.paths_eq.symm.trans (hname ▸ hpaths))
    have hancestors : r.ancestors = ["line", "company"] := by
      rw [hr.ancestors_eq ["line", "south", "company"] (by rw [hways]; decide), hways]
      decide
    refine ⟨hg, task, hmem, r, hfound, hways, hancestors, fun name => ?_⟩
    rw [hr.mem_required, ← hr.mem_ancestors, hancestors]

end AccessMatrix.Graph
