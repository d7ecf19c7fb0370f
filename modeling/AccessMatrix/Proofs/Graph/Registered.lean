import AccessMatrix.Proofs.Graph.WellNamed

/-!
# Graphs made by registration

What a run of registrations leaves: the graph is well named, and every relation that an entity stores
names registered entities only. The ancestors are a set and a sequence of the same names.
-/

namespace AccessMatrix.Graph

open Outcome

/-- A walk stays within whatever holds of its start and is handed on to parents. -/
theorem walk_forall {α : Type} [DecidableEq α] {parentsOf : α → List α} {motive : α → Prop}
    (hup : ∀ name, motive name → ∀ parent ∈ parentsOf name, motive parent) {depth : Nat}
    {path visited reached : List α} {name : α} (hname : motive name)
    (hvisited : ∀ other ∈ visited, motive other)
    (h : walk parentsOf depth path visited name = .ok reached) :
    ∀ other ∈ reached, motive other := by
  induction depth generalizing path visited name reached with
  | zero =>
    obtain rfl : visited = reached := by simpa [walk] using h
    exact hvisited
  | succ depth ih =>
    simp only [walk] at h
    refine foldlM_keeps (motive := fun visited => ∀ other ∈ visited, motive other) ?_ hvisited h
    intro visited hvisited parent hparent next hnext
    split at hnext
    · contradiction
    · split at hnext
      · obtain rfl : visited = next := by simpa using hnext
        exact hvisited
      · have hmotive := hup name hname parent hparent
        refine ih hmotive ?_ hnext
        exact List.forall_mem_cons.mpr ⟨hmotive, hvisited⟩

/-- A closure stays within whatever holds of its starts and is handed on to parents. -/
theorem closureWithin_forall {α : Type} [DecidableEq α] {parentsOf : α → List α}
    {motive : α → Prop} (hup : ∀ name, motive name → ∀ parent ∈ parentsOf name, motive parent)
    {depth : Nat} {starts reached : List α} (hstarts : ∀ name ∈ starts, motive name)
    (h : closureWithin parentsOf depth starts = .ok reached) : ∀ name ∈ reached, motive name := by
  refine foldlM_keeps (motive := fun visited => ∀ other ∈ visited, motive other) ?_ (by simp) h
  intro visited hvisited start hstart next hnext
  split at hnext
  · obtain rfl : visited = next := by simpa using hnext
    exact hvisited
  · have hmotive := hstarts start hstart
    exact walk_forall hup hmotive (List.forall_mem_cons.mpr ⟨hmotive, hvisited⟩) hnext

/-- The entity that a walk reports to close a cycle stays within whatever holds of its start and is
handed on to parents. -/
theorem walk_error_forall {α : Type} [DecidableEq α] {parentsOf : α → List α} {motive : α → Prop}
    (hup : ∀ name, motive name → ∀ parent ∈ parentsOf name, motive parent) {depth : Nat}
    {path visited : List α} {name : α} {cycle : Cycle α} (hname : motive name)
    (h : walk parentsOf depth path visited name = .error cycle) : motive cycle.name := by
  induction depth generalizing path visited name with
  | zero => cases h
  | succ depth ih =>
    rw [walk] at h
    obtain ⟨state, parent, hparent, hstep⟩ := exists_of_foldlM_eq_error h
    have hmotive := hup name hname parent hparent
    split at hstep
    · obtain rfl := Except.error.inj hstep
      exact hmotive
    · split at hstep
      · cases hstep
      · exact ih hmotive hstep

/-- The entity that a closure reports to close a cycle stays within whatever holds of its starts and is
handed on to parents. -/
theorem closureWithin_error_forall {α : Type} [DecidableEq α] {parentsOf : α → List α}
    {motive : α → Prop} (hup : ∀ name, motive name → ∀ parent ∈ parentsOf name, motive parent)
    {depth : Nat} {starts : List α} {cycle : Cycle α} (hstarts : ∀ name ∈ starts, motive name)
    (h : closureWithin parentsOf depth starts = .error cycle) : motive cycle.name := by
  obtain ⟨state, start, hstart, hstep⟩ := exists_of_foldlM_eq_error h
  split at hstep
  · cases hstep
  · exact walk_error_forall hup (hstarts start hstart) hstep

/-- The graphs that registrations lead to. -/
inductive Registered : Graph → Prop where
  | empty : Registered {}
  | register {g g' : Graph} {r : Registration} {e : Entity} (hg : Registered g)
      (h : g.register r = .ok (g', e)) : Registered g'

/-- Register entities one after the other, if all of them can be. -/
def registerAll : Graph → List Registration → Option Graph
  | g, [] => some g
  | g, r :: rest => (g.register r).toOption.bind fun registered => registerAll registered.1 rest

/-- Registrations that succeed one after the other keep a graph made by registration. -/
theorem Registered.registerAll {g g' : Graph} (hg : Registered g) {rs : List Registration}
    (h : g.registerAll rs = some g') : Registered g' := by
  induction rs generalizing g with
  | nil => exact Option.some.inj h ▸ hg
  | cons r rest ih =>
    obtain ⟨⟨next, e⟩, hnext, h⟩ := Option.bind_eq_some_iff.mp h
    cases hregister : g.register r with
    | error error => simp [hregister, Except.toOption] at hnext
    | ok registered =>
      obtain rfl : registered = (next, e) := by simpa [hregister, Except.toOption] using hnext
      exact ih (hg.register hregister) h

/-- Graphs made by registration are well named. -/
theorem Registered.wellNamed {g : Graph} (h : g.Registered) : g.WellNamed := by
  induction h with
  | empty => exact empty_wellNamed
  | register _ h ih => exact ih.register h

/-- In a graph made by registration an entity is found under its name. -/
theorem Registered.find?_name {g : Graph} (h : g.Registered) {e : Entity} (he : e ∈ g.entities) :
    g.find? e.name = some e :=
  (find?_eq_some_iff h.wellNamed.names_nodup).mpr ⟨he, rfl⟩

/-- A registered entity links to the parents that it stores. -/
theorem Registered.parentsOf_name {g : Graph} (h : g.Registered) {e : Entity}
    (he : e ∈ g.entities) : g.parentsOf e.name = e.parents := by
  rw [parentsOf, h.find?_name he]
  rfl

/-- The parents and ancestors that an entity stores are registered, and its ancestors are those that
it lists by their nearness. -/
structure Related (g : Graph) (e : Entity) : Prop where
  parents_mem : ∀ parent ∈ e.parents, parent ∈ g.names
  ancestors_mem : ∀ ancestor ∈ e.ancestors, ancestor ∈ g.names
  mem_nearestFirst : ∀ ancestor, ancestor ∈ e.nearestFirst ↔ ancestor ∈ e.ancestors

theorem mem_filterMap_find? {g : Graph} {names : List String} {name : String} :
    name ∈ (names.filterMap g.find?).map Entity.name ↔ name ∈ names ∧ name ∈ g.names := by
  simp only [List.mem_map, List.mem_filterMap]
  constructor
  · intro hfound
    obtain ⟨e, ⟨other, hother, hfind⟩, rfl⟩ := hfound
    obtain rfl : e.name = other := name_of_find? hfind
    exact ⟨hother, List.mem_map_of_mem (List.mem_of_find?_eq_some hfind)⟩
  · intro hregistered
    obtain ⟨hname, hmem⟩ := hregistered
    obtain ⟨e, hfind⟩ := Option.isSome_iff_exists.mp (find?_isSome_iff.mpr hmem)
    exact ⟨e, ⟨name, hname, hfind⟩, name_of_find? hfind⟩

/-- Where entities store registered parents, every parent is registered. -/
theorem parentsOf_mem {g : Graph} (h : ∀ e ∈ g.entities, g.Related e) (name : String) :
    ∀ parent ∈ g.parentsOf name, parent ∈ g.names := by
  intro parent hparent
  rw [parentsOf] at hparent
  cases hfind : g.find? name with
  | none => simp [hfind] at hparent
  | some e =>
    exact (h e (List.mem_of_find?_eq_some hfind)).parents_mem parent (by simpa [hfind] using hparent)

/-- An entity lists its ancestors by their nearness, if they are registered. -/
theorem mem_nearestFirst_derive {g : Graph} {d : Draft} {ancestors : List String}
    (hmem : ∀ name ∈ ancestors, name ∈ g.names) (name : String) :
    name ∈ (g.derive d ancestors).nearestFirst ↔ name ∈ ancestors := by
  change name ∈ ((ancestors.filterMap g.find?).mergeSort isNearer).map Entity.name ↔ name ∈ ancestors
  rw [((List.mergeSort_perm _ _).map Entity.name).mem_iff, mem_filterMap_find?]
  exact and_iff_left_of_imp (hmem name)

/-- A registration that succeeds relates the new entity to registered ones and keeps the relations
of the others. -/
theorem related_register {g g' : Graph} {r : Registration} {new : Entity}
    (hg : ∀ e ∈ g.entities, g.Related e) (h : g.register r = .ok (g', new)) :
    ∀ e ∈ g'.entities, g'.Related e := by
  obtain ⟨d, ancestors, hd, hancestors, rfl, rfl⟩ := register_cases h
  have hlater : ∀ name ∈ g.names, name ∈ (g.link (g.derive d ancestors)).names := fun name hname =>
    names_link g _ ▸ List.mem_append_left _ hname
  have hparents := (draft_ok hd).parents_mem
  have hmem : ∀ name ∈ ancestors, name ∈ g.names :=
    closureWithin_forall (fun name _ => parentsOf_mem hg name) hparents hancestors
  intro e he
  rcases List.mem_append.mp he with he | he
  · obtain ⟨old, hold, rfl⟩ := List.mem_map.mp he
    have hrelated := hg old hold
    exact ⟨fun name hname => hlater name (hrelated.parents_mem name hname),
      fun name hname => hlater name (hrelated.ancestors_mem name hname), hrelated.mem_nearestFirst⟩
  · obtain rfl := List.mem_singleton.mp he
    exact ⟨fun name hname => hlater name (hparents name hname),
      fun name hname => hlater name (hmem name hname), mem_nearestFirst_derive hmem⟩

/-- In a graph made by registration, what entities store is registered. -/
theorem Registered.related {g : Graph} (h : g.Registered) : ∀ e ∈ g.entities, g.Related e := by
  induction h with
  | empty => exact fun _ he => absurd he List.not_mem_nil
  | register _ h ih => exact related_register ih h

end AccessMatrix.Graph
