import AccessMatrix.Proofs.Graph.Ownership
import AccessMatrix.Proofs.Session.Registrations

/-!
# Sessions that reassign no parents

As long as a session reassigns no parents, its graph only grows. What stood above a registered name
goes on to do so and nothing else comes to, so what was compiled on an earlier graph is as good as
compiled on the present one. The owners of entities, and the entities that contexts gate, are those
that the parent links tell.
-/

namespace AccessMatrix

namespace Graph

/-- Registrations lead from a graph to another one. -/
inductive GrowsTo (g : Graph) : Graph → Prop where
  | refl : GrowsTo g g
  | register {later last : Graph} {r : Registration} {e : Entity} (h : GrowsTo g later)
      (hregister : later.register r = .ok (last, e)) : GrowsTo g last

namespace GrowsTo

variable {g later : Graph}

/-- A graph that is made by registration is so when it has grown. -/
theorem registered (h : g.GrowsTo later) (hg : g.Registered) : later.Registered := by
  induction h with
  | refl => exact hg
  | register _ hregister ih => exact ih.register hregister

/-- No name is forgotten. -/
theorem mem_names (h : g.GrowsTo later) {name : String} (hname : name ∈ g.names) :
    name ∈ later.names := by
  induction h with
  | refl => exact hname
  | register _ hregister ih =>
    obtain ⟨d, ancestors, -, -, rfl, rfl⟩ := register_cases hregister
    rw [names_link]
    exact List.mem_append_left _ ih

/-- What a registered name has above it stays the same. -/
theorem above_iff (h : g.GrowsTo later) (hg : g.Registered) {name other : String}
    (hname : name ∈ g.names) : later.Above name other ↔ g.Above name other := by
  induction h with
  | refl => exact Iff.rfl
  | register hgrown hregister ih =>
    obtain ⟨d, ancestors, hd, -, rfl, rfl⟩ := register_cases hregister
    have hfresh := (draft_ok hd).derive_fresh ancestors
    rw [(hgrown.registered hg).consistent.above_link_iff hfresh (hgrown.mem_names hname), ih]

end GrowsTo

end Graph

namespace Session

open Policy (Round Snapshot)

/-- The graph of a world was made by registrations, and the snapshot was compiled on a graph of
which that is true and from which the present one has grown. -/
structure World.Grown (w : World) : Prop where
  registered : w.graph.Registered
  published : ∃ (g : Graph) (round : Round), g.Registered ∧ g.GrowsTo w.graph ∧
    w.compiler.published = .compile g round

namespace World

theorem grown_empty : Grown {} := ⟨.empty, {}, {}, .empty, .refl, rfl⟩

/-- Publishing compiles on the present graph. -/
theorem Grown.adopt {w : World} (h : w.Grown) (id : Policy.RoundId) :
    Grown { w with compiler := w.compiler.adopt w.graph id } :=
  ⟨h.registered, w.graph, w.compiler.round id, h.registered, .refl, rfl⟩

/-- Every operation keeps a world grown, unless it reassigns parents. -/
theorem Grown.apply {w : World} (h : w.Grown) {op : Operation} (hop : op.reassigns = false) :
    (w.apply op).Grown := by
  obtain ⟨hregistered, g, round, hg, hgrown, hpublished⟩ := h
  cases op with
  | register r =>
    rw [World.apply]
    split
    · rename_i later e hregister
      exact ⟨hregistered.register hregister, g, round, hg, hgrown.register hregister, hpublished⟩
    · exact ⟨hregistered, g, round, hg, hgrown, hpublished⟩
  | assignParents name parents => contradiction
  | build => exact Grown.adopt ⟨hregistered, g, round, hg, hgrown, hpublished⟩ w.compiler.current
  | adopt id => exact Grown.adopt ⟨hregistered, g, round, hg, hgrown, hpublished⟩ id
  | declare _ | call _ _ | clear | stage => exact ⟨hregistered, g, round, hg, hgrown, hpublished⟩

/-- Operations that reassign no parents keep a world grown. -/
theorem Grown.replay {w : World} (h : w.Grown) {ops : List Operation}
    (hops : ∀ op ∈ ops, op.reassigns = false) : (w.replay ops).Grown := by
  induction ops generalizing w with
  | nil => exact h
  | cons op rest ih =>
    obtain ⟨hop, hrest⟩ := List.forall_mem_cons.mp hops
    exact ih (h.apply hop) hrest

end World

/-- Commands that reassign no parents lead from an empty world to one that is grown. -/
theorem grown_after {s : Session} (hnew : s.world = {}) {commands : List Command}
    (hops : ∀ op ∈ s.opsOf commands, op.reassigns = false) : (s.after commands).world.Grown := by
  rw [(runs_opsOf s commands).eq_replay, hnew]
  exact World.grown_empty.replay hops

/-- Ownership is exact after every run that begins without entities and reassigns no parents. The
owners of an entity are the contexts that it reaches by one parent link or more with no context in
between, and the entities that a context gates are those that it owns, so that only contexts gate
any. A parent that is a context is the only owner on its branch; any other parent hands on its
owners, whatever the other branches do. -/
theorem ownership_exact {s : Session} (hnew : s.engine.graph = {}) {commands : List Command}
    (hops : ∀ op ∈ s.opsOf commands, op.reassigns = false) :
    let g := (s.after commands).engine.graph
    (∀ e ∈ g.entities, ∀ c ∈ g.entities,
      (c.name ∈ e.owners ↔ g.GatedBy e.name c.name) ∧
      (e.name ∈ c.controllers ↔ c.name ∈ e.owners)) ∧
    (∀ c ∈ g.entities, c.isContext = false → c.controllers = []) ∧
    (∀ e ∈ g.entities, ∀ c ∈ g.entities, c.name ∈ e.owners ↔
      ∃ parent ∈ g.entities, parent.name ∈ e.parents ∧
        if parent.isContext then parent.name = c.name else c.name ∈ parent.owners) := by
  intro g
  have hg : g.Registered := registered_after hnew hops
  refine ⟨fun e he c hc => ⟨hg.owned.mem_owners e he c hc, hg.owned.mem_controllers e he c hc⟩,
    fun c hc hcontext => hg.controllers_of_not_context hc hcontext, fun e he c hc => ?_⟩
  rw [hg.owned.mem_owners e he c hc, Graph.gatedBy_iff]
  have hparents (name : String) : Graph.Link g.parentsOf e.name name ↔ name ∈ e.parents := by
    have hfind := (Graph.find?_eq_some_iff hg.wellNamed.names_nodup).mpr ⟨he, rfl⟩
    rw [Graph.Link, Graph.parentsOf, hfind]
    rfl
  simp only [hparents]
  constructor
  · intro h
    obtain ⟨name, hname, h⟩ := h
    obtain ⟨parent, hparent, rfl⟩ := Graph.mem_names.mp
      ((hg.related e he).parents_mem name hname)
    refine ⟨parent, hparent, hname, ?_⟩
    rwa [Graph.hasContext_name hg.wellNamed.names_nodup hparent,
      ← hg.owned.mem_owners parent hparent c hc] at h
  · intro h
    obtain ⟨parent, hparent, hname, h⟩ := h
    refine ⟨parent.name, hname, ?_⟩
    rwa [Graph.hasContext_name hg.wellNamed.names_nodup hparent,
      ← hg.owned.mem_owners parent hparent c hc]

/-- An organization with a wing and a course, a desk in the course, and an item that is in the
course and in the wing. -/
def branchingCommands : List Command :=
  [.step (.register { kind := .context, name := .text "org", roles := .ofTexts ["admin"] }),
    .step (.register { kind := .plain, name := .text "wing", parents := .each [.own "org"] }),
    .step (.register { kind := .context, name := .text "course", roles := .ofTexts ["staff"],
                       parents := .each [.own "org"] }),
    .step (.register { kind := .product, name := .text "desk", parents := .each [.own "course"] }),
    .step (.register { kind := .product, name := .text "desk", parents := .each [.own "org"] }),
    .step (.register { kind := .product, name := .text "item",
                       parents := .each [.own "course", .own "wing"] })]

/-- The course keeps the desk from the organization, which reaches the item past it over the
wing. -/
theorem ownership_exact_branching :
    let g := (({} : Session).after branchingCommands).engine.graph
    (∀ op ∈ ({} : Session).opsOf branchingCommands, op.reassigns = false) ∧
      g.GatedBy "item" "org" ∧ g.GatedBy "item" "course" ∧ ¬ g.GatedBy "desk" "org" := by
  intro g
  have hops : ∀ op ∈ ({} : Session).opsOf branchingCommands, op.reassigns = false := by
    decide +kernel
  obtain ⟨howners, -, -⟩ := ownership_exact rfl hops
  have hstored : ∃ org ∈ g.entities, ∃ course ∈ g.entities, ∃ desk ∈ g.entities,
      ∃ item ∈ g.entities, org.name = "org" ∧ course.name = "course" ∧ desk.name = "desk" ∧
        item.name = "item" ∧ org.name ∈ item.owners ∧ course.name ∈ item.owners ∧
        org.name ∉ desk.owners := by
    decide +kernel
  obtain ⟨org, horg, course, hcourse, desk, hdesk, item, hitem, horgName, hcourseName, hdeskName,
    hitemName, hitemOrg, hitemCourse, hdeskOrg⟩ := hstored
  rw [← horgName, ← hcourseName, ← hdeskName, ← hitemName]
  exact ⟨hops, (howners item hitem org horg).1.mp hitemOrg,
    (howners item hitem course hcourse).1.mp hitemCourse,
    fun hgated => hdeskOrg ((howners desk hdesk org horg).1.mpr hgated)⟩

end Session

end AccessMatrix
