import AccessMatrix.Proofs.Policy.Extension
import AccessMatrix.Proofs.Session.Moments

/-!
# Registering after declaring

Declarations are not bound to the entities of their time: a build goes through the graph that is there
then. Still, entities that are registered later change nothing for the earlier ones.
-/

namespace AccessMatrix.Session

open Policy (Round)

/-- In every world that sessions lead to, entities list registered names only by their nearness, also
where parents were reassigned. -/
theorem World.Reached.listsRegistered {w : World} (h : w.Reached) : w.graph.ListsRegistered := by
  refine h.keeps_graph (motive := Graph.ListsRegistered) (fun _ he => absurd he List.not_mem_nil)
    (fun hg hregister => hg.register hregister) fun {g} hg name parents => ?_
  refine List.forall_mem_map.mpr fun e he => ?_
  rw [Graph.names_assignParents]
  split
  · exact hg e he
  · exact hg e he

/-- An operation that registers an entity, or fails to, or builds. -/
def Operation.grows : Operation → Bool
  | .register _ | .build => true
  | _ => false

/-- Registrations and builds let the graph grow and leave the declarations as they are. -/
theorem World.growsTo_replay (w : World) {ops : List Operation}
    (hops : ∀ op ∈ ops, op.grows = true) :
    w.graph.GrowsTo (w.replay ops).graph ∧ (w.replay ops).declarations = w.declarations := by
  induction ops using List.reverseRecOn with
  | nil => exact ⟨.refl, rfl⟩
  | append_singleton ops op ih =>
    obtain ⟨hbefore, hop⟩ := List.forall_mem_append.mp hops
    obtain ⟨hgrown, hdeclarations⟩ := ih hbefore
    have hlast : w.replay (ops ++ [op]) = (w.replay ops).apply op := by
      rw [World.replay_append]
      rfl
    rw [hlast]
    cases op with
    | register r =>
      rw [World.apply]
      split
      · rename_i g e hregister
        exact ⟨hgrown.register hregister, hdeclarations⟩
      · exact ⟨hgrown, hdeclarations⟩
    | build => exact ⟨hgrown, hdeclarations⟩
    | _ => exact absurd (List.forall_mem_singleton.mp hop) Bool.false_ne_true

/-- Growing the graph does not change existing policy. At any moment, let commands follow that do no
more than to register entities, or to fail to, and to build. A build then publishes the actions, the
declared actions of slots and the index that a build would have published before. It has the same cells
over the entities of before, in the same order, and every other cell is over an entity that was not
registered then and grants nothing. -/
theorem growing_graph_keeps_policy {s : Session} (hs : s.Occurs) {commands : List Command}
    (hops : ∀ op ∈ s.opsOf commands, op.grows = true) :
    let g := s.engine.graph
    let before := (s.after [.step .build]).engine.compiler.published
    let later := (s.after (commands ++ [.step .build])).engine.compiler.published
    later.actions = before.actions ∧ later.defined = before.defined ∧
      later.allowance = before.allowance ∧
      later.cells.filter (fun cell => g.Knows cell.slot) = before.cells ∧
      before.cells.Sublist later.cells ∧
      ∀ cell ∈ later.cells, cell ∉ before.cells →
        ¬ g.Knows cell.slot ∧ ∀ action, cell.actions.get? action ≠ some true := by
  intro g before later
  obtain ⟨ds, hds, hnamed⟩ := hs.orderly.rounds s.engine.compiler.current
  obtain ⟨hgrown, hdeclarations⟩ := s.world.growsTo_replay hops
  rw [← (runs_opsOf s commands).eq_replay] at hgrown hdeclarations
  have hround : (Round.ofDeclarations ds).NamesRegistered g :=
    Round.namesRegistered_ofDeclarations fun d hd => ⟨(hnamed d hd).context, (hnamed d hd).subject⟩
  have hbefore : before = .compile g (.ofDeclarations ds) := by
    rw [← hds]
    exact (published_build s []).2
  have hlater : later = .compile (s.after commands).engine.graph (.ofDeclarations ds) := by
    rw [← hds]
    exact (published_build s commands).2.trans (congrArg (Policy.Snapshot.compile _) hdeclarations)
  have hextends := Policy.Snapshot.extends_of_growsTo hround hs.reached.listsRegistered hgrown
  rw [hbefore, hlater]
  refine ⟨hextends.actions, hextends.defined, hextends.allowance, hextends.cells, ?_,
    fun cell hcell hnew => ?_⟩
  · rw [← hextends.cells]
    exact List.filter_sublist
  · have hunknown : ¬ g.Knows cell.slot := fun hknown =>
      hnew (hextends.cells ▸ List.mem_filter.mpr ⟨hcell, decide_eq_true hknown⟩)
    exact ⟨hunknown, hextends.refuses cell hcell hunknown⟩

/-- A laboratory in the office and a desk in the laboratory, and between them an office again and a
room of an unknown building. -/
def laboratoryCommands : List Command :=
  [.step (.register { kind := .context, name := .text "lab", roles := .ofTexts ["lead"],
                      parents := .each [.own "org"] }),
    .step (.register { kind := .context, name := .text "org", roles := .ofTexts ["staff"] }),
    .step (.register { kind := .product, name := .text "room",
                       parents := .each [.value (.text "building")] }),
    .step .build,
    .step (.register { kind := .product, name := .text "desk", parents := .each [.own "lab"] })]

/-- The admin of the office goes on to read there, and nobody reads in the laboratory. -/
theorem growing_graph_keeps_policy_laboratory :
    let s := ({} : Session).after officeCommands
    let before := (s.after [.step .build]).engine.compiler.published
    let later := (s.after (laboratoryCommands ++ [.step .build])).engine.compiler.published
    s.Occurs ∧ (∀ op ∈ s.opsOf laboratoryCommands, op.grows = true) ∧
      later.allowance = before.allowance ∧ before.allowance ≠ [] ∧
      before.cells.length = 1 ∧ before.cells.Sublist later.cells ∧ later.cells.length = 6 ∧
      ∀ cell ∈ later.cells, cell.subject = "desk" → cell.actions.get? "read" ≠ some true := by
  intro s before later
  have hs : s.Occurs := .ofCommands officeCommands
  have hops : ∀ op ∈ s.opsOf laboratoryCommands, op.grows = true := by decide +kernel
  obtain ⟨-, -, hallowance, -, hcells, hnew⟩ := growing_graph_keeps_policy hs hops
  have hoffice : ∀ cell ∈ before.cells, cell.subject = "org" := by decide +kernel
  refine ⟨hs, hops, hallowance, by decide +kernel, by decide +kernel, hcells, by decide +kernel, ?_⟩
  intro cell hcell hdesk
  refine (hnew cell hcell fun hold => ?_).2 "read"
  exact absurd ((hoffice cell hold).symm.trans hdesk) (by decide)

end AccessMatrix.Session
