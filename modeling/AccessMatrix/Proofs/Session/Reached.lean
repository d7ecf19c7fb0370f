import AccessMatrix.Proofs.Graph.WellNamed
import AccessMatrix.Proofs.Session.History

/-!
# Worlds that sessions lead to

Whatever the commands of a session are, also in the midst of a callback, its graph is well named, its
rounds hold declarations and nothing else, and its published snapshot is the compilation of some
declarations on a graph that the present one has outgrown at most.
-/

namespace AccessMatrix.Session

open Outcome
open Policy (Compiler Declaration Round RoundId Snapshot)

namespace World

/-- A world that operations lead to, from an empty graph and a new compiler. -/
def Reached (w : World) : Prop := ∃ ops, Runs {} ops w

/-- Commands one after the other lead from a new session to a world that is reached. -/
theorem reached_after (commands : List Command) : (({} : Session).after commands).world.Reached :=
  ⟨_, runs_opsOf {} commands⟩

/-- What holds of every world that is reached: the names of the graph are well kept, a round was
begun for the declarations, every round holds what was declared, and what is published was compiled
from declarations. -/
structure Sound (w : World) : Prop where
  wellNamed : w.graph.WellNamed
  begun : w.Begun
  rounds : ∀ id, ∃ ds, w.compiler.round id = Round.ofDeclarations ds
  published : ∃ (g : Graph) (ds : List Declaration), g.WellNamed ∧ g.Within w.graph ∧
    w.compiler.published = .compile g (Round.ofDeclarations ds)

/-- What sessions start from is sound. -/
theorem sound_empty : Sound {} where
  wellNamed := Graph.empty_wellNamed
  begun := Nat.zero_lt_one
  rounds id := by
    refine ⟨[], ?_⟩
    cases id <;> rfl
  published := ⟨{}, [], Graph.empty_wellNamed, Graph.Within.refl _, rfl⟩

namespace Sound

variable {w : World}

/-- A graph that the present one has outgrown goes on to be outgrown. -/
theorem withGraph (h : w.Sound) {g : Graph} (hg : g.WellNamed) (hwithin : w.graph.Within g) :
    Sound { w with graph := g } where
  wellNamed := hg
  begun := h.begun
  rounds := h.rounds
  published := by
    obtain ⟨g₀, ds, hg₀, hbefore, hpublished⟩ := h.published
    exact ⟨g₀, ds, hg₀, hbefore.trans hwithin, hpublished⟩

/-- Recording adds a declaration to a round. -/
theorem record (h : w.Sound) (id : RoundId) (d : Declaration) :
    Sound { w with compiler := (w.compiler.record id d).1 } where
  wellNamed := h.wellNamed
  begun := Nat.lt_of_lt_of_le h.begun (count_apply w (.call id d))
  rounds other := by
    obtain ⟨ds, hds⟩ := h.rounds other
    by_cases hother : id = other
    · subst hother
      by_cases hbegun : id < w.compiler.rounds.length
      · refine ⟨ds ++ [d], ?_⟩
        rw [Compiler.round_record _ _ _ _ hbegun, if_pos rfl, hds, Round.ofDeclarations_concat]
      · refine ⟨[], ?_⟩
        simp [Compiler.record, Compiler.round, Nat.le_of_not_lt hbegun, Round.ofDeclarations]
    · exact ⟨ds, (round_record_of_ne _ d hother).trans hds⟩
  published := h.published

theorem stage (h : w.Sound) : Sound { w with compiler := w.compiler.stage.1 } where
  wellNamed := h.wellNamed
  begun := Nat.lt_of_lt_of_le h.begun (count_apply w .stage)
  rounds id := by
    obtain ⟨ds, hds⟩ := h.rounds id
    exact ⟨ds, (Compiler.round_stage _ id).trans hds⟩
  published := h.published

/-- A begun round can be made current, and what it holds can be published. -/
theorem adopt (h : w.Sound) {id : RoundId} (hbegun : id < w.compiler.rounds.length) :
    Sound { w with compiler := w.compiler.adopt w.graph id } where
  wellNamed := h.wellNamed
  begun := hbegun
  rounds := h.rounds
  published := by
    obtain ⟨ds, hds⟩ := h.rounds id
    exact ⟨w.graph, ds, h.wellNamed, .refl _, congrArg (Snapshot.compile w.graph) hds⟩

/-- Every operation keeps a world sound, if it adopts only what was begun. -/
theorem apply (h : w.Sound) (op : Operation)
    (hadopt : ∀ id, op = .adopt id → id < w.compiler.rounds.length) : (w.apply op).Sound := by
  cases op with
  | register r =>
    rw [World.apply]
    split
    · rename_i g e hregister
      exact h.withGraph (h.wellNamed.register hregister) (.register hregister)
    · exact h
  | assignParents name parents =>
    exact h.withGraph (h.wellNamed.assignParents name parents) (Graph.within_assignParents _ _ _)
  | declare d => exact h.record _ d
  | call id d => exact h.record id d
  | clear =>
    have hstage := h.stage
    exact ⟨h.wellNamed, by simp [Begun, World.apply, Compiler.clear, Compiler.stage],
      hstage.rounds, h.published⟩
  | build => exact h.adopt h.begun
  | stage => exact h.stage
  | adopt id => exact h.adopt (hadopt id rfl)

end Sound

/-- Every world that is reached is sound. -/
theorem Reached.sound {w : World} (h : w.Reached) : w.Sound := by
  obtain ⟨ops, hops⟩ := h
  exact hops.keeps (fun _ op hw hadopt => hw.apply op hadopt) sound_empty

/-- What registering and reassigning parents keep of a graph holds in every world that is reached. -/
theorem Reached.keeps_graph {motive : Graph → Prop} {w : World} (h : w.Reached) (hempty : motive {})
    (hregister : ∀ {g g' : Graph} {r : Registration} {new : Entity},
      motive g → g.register r = .ok (g', new) → motive g')
    (hassign : ∀ {g : Graph}, motive g → ∀ name parents, motive (g.assignParents name parents)) :
    motive w.graph := by
  obtain ⟨ops, hops⟩ := h
  refine hops.keeps (motive := fun w => motive w.graph) (fun w op hw _ => ?_) hempty
  cases op with
  | register r =>
    rw [World.apply]
    split
    · rename_i g e hg
      exact hregister hw hg
    · exact hw
  | assignParents name parents => exact hassign hw name parents
  | declare _ | call _ _ | clear | build | stage | adopt _ => exact hw

/-- What a session has published was compiled from declarations on a graph that is outgrown at most. -/
theorem Reached.published {s : Session} (h : s.world.Reached) :
    ∃ (g : Graph) (ds : List Declaration), g.Within s.engine.graph ∧
      s.engine.compiler.published = .compile g (Round.ofDeclarations ds) := by
  obtain ⟨g, ds, -, hwithin, hpublished⟩ := h.sound.published
  exact ⟨g, ds, hwithin, hpublished⟩

end World

end AccessMatrix.Session
