import AccessMatrix.Proofs.Graph.Registered
import AccessMatrix.Proofs.Session.History

/-!
# Registrations in a session

Whatever a session does, as long as it reassigns no parents, its graph is one that registrations make.
-/

namespace AccessMatrix

namespace Session

/-- An operation that reassigns parents. -/
def Operation.reassigns : Operation → Bool
  | .assignParents _ _ => true
  | _ => false

/-- An operation that reassigns no parents keeps a graph made by registration. -/
theorem World.registered_apply {w : World} (hw : w.graph.Registered) {op : Operation}
    (hop : op.reassigns = false) : (w.apply op).graph.Registered := by
  cases op with
  | register r =>
    rw [World.apply]
    split
    · rename_i g e hregister
      exact hw.register hregister
    · exact hw
  | assignParents name parents => contradiction
  | declare _ | call _ _ | clear | build | stage | adopt _ => exact hw

/-- Operations that reassign no parents keep a graph made by registration. -/
theorem World.registered_replay {w : World} (hw : w.graph.Registered) {ops : List Operation}
    (hops : ∀ op ∈ ops, op.reassigns = false) : (w.replay ops).graph.Registered := by
  induction ops generalizing w with
  | nil => exact hw
  | cons op rest ih =>
    obtain ⟨hop, hrest⟩ := List.forall_mem_cons.mp hops
    exact ih (World.registered_apply hw hop) hrest

/-- A run that begins without entities and reassigns no parents leads to a graph made by registration. -/
theorem registered_after {s : Session} (hnew : s.engine.graph = {}) {commands : List Command}
    (hops : ∀ op ∈ s.opsOf commands, op.reassigns = false) :
    (s.after commands).engine.graph.Registered := by
  have hempty : s.world.graph.Registered := by
    change s.engine.graph.Registered
    rw [hnew]
    exact .empty
  have hworld : (s.after commands).world = s.world.replay (s.opsOf commands) :=
    (runs_opsOf s commands).eq_replay
  have hregistered := World.registered_replay hempty hops
  rwa [← hworld] at hregistered

end Session

end AccessMatrix
