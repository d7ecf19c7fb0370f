import AccessMatrix.Proofs.Policy.Rounds
import AccessMatrix.Session.Basic

/-!
# Operations on graphs and rounds

What commands do to the graph of a session and to its compiler comes down to a few operations, which
can be replayed. A round that is neither current nor adopted is apart: what is recorded in it changes
nothing else, and what is recorded in it is all that it ever holds.
-/

namespace AccessMatrix.Session

open Policy (Compiler Declaration Round RoundId Snapshot)

/-- What compiled policies rest on: a graph and a compiler. -/
structure World where
  graph : Graph := {}
  compiler : Compiler := {}

/-- What the policies of a session rest on. -/
def world (s : Session) : World := ⟨s.engine.graph, s.engine.compiler⟩

/-- What can be done to a world. A setter's call is told apart from a declaration, because it goes to
the round that its setter was made for. -/
inductive Operation where
  | register (r : Registration)
  | assignParents (name : String) (parents : List String)
  | declare (d : Declaration)
  | call (round : RoundId) (d : Declaration)
  | clear
  | build
  | stage
  | adopt (round : RoundId)

namespace Operation

/-- An operation that neither begins a configuration nor ends one. -/
def isPlain : Operation → Bool
  | stage | adopt _ => false
  | _ => true

/-- What a call of a setter of a round declares. -/
def callIn? (round : RoundId) : Operation → Option Declaration
  | call other d => if other = round then some d else none
  | _ => none

/-- Whether an operation is a call of a setter of a round. -/
def isCallIn (round : RoundId) (op : Operation) : Bool := (op.callIn? round).isSome

theorem isCallIn_iff {round : RoundId} {op : Operation} :
    op.isCallIn round = true ↔ ∃ d, op = .call round d := by
  cases op with
  | call other d => by_cases h : other = round <;> simp [isCallIn, callIn?, h]
  | _ => simp [isCallIn, callIn?]

end Operation

/-- What the setters of a round declared in a run, in the order of their calls. -/
def callsIn (round : RoundId) (ops : List Operation) : List Declaration :=
  ops.filterMap (Operation.callIn? round)

/-- A run without the calls of the setters of a round. -/
def withoutCallsIn (round : RoundId) (ops : List Operation) : List Operation :=
  ops.filter fun op => !op.isCallIn round

namespace World

/-- Do an operation; a registration that is refused does nothing. -/
def apply (w : World) : Operation → World
  | .register r =>
    match w.graph.register r with
    | .ok (g, _) => { w with graph := g }
    | .error _ => w
  | .assignParents name parents => { w with graph := w.graph.assignParents name parents }
  | .declare d => { w with compiler := (w.compiler.record w.compiler.current d).1 }
  | .call round d => { w with compiler := (w.compiler.record round d).1 }
  | .clear => { w with compiler := w.compiler.clear }
  | .build => { w with compiler := w.compiler.build w.graph }
  | .stage => { w with compiler := w.compiler.stage.1 }
  | .adopt round => { w with compiler := w.compiler.adopt w.graph round }

/-- Do operations one after the other. -/
def replay (w : World) (ops : List Operation) : World := ops.foldl apply w

/-- The declarations that the next build compiles. -/
def declarations (w : World) : Round := w.compiler.round w.compiler.current

/-- The current round of a world was begun. -/
def Begun (w : World) : Prop := w.compiler.current < w.compiler.rounds.length

/-- A round was begun and is not the current one. -/
structure Apart (round : RoundId) (w : World) : Prop where
  begun : round < w.compiler.rounds.length
  not_current : w.compiler.current ≠ round

/-- Two worlds are the same but for what one round holds. -/
structure AgreeOutside (round : RoundId) (w w' : World) : Prop where
  graph : w'.graph = w.graph
  current : w'.compiler.current = w.compiler.current
  published : w'.compiler.published = w.compiler.published
  count : w'.compiler.rounds.length = w.compiler.rounds.length
  rounds : ∀ other, other ≠ round → w'.compiler.round other = w.compiler.round other

theorem replay_cons (w : World) (op : Operation) (ops : List Operation) :
    w.replay (op :: ops) = (w.apply op).replay ops := rfl

theorem replay_append (w : World) (ops later : List Operation) :
    w.replay (ops ++ later) = (w.replay ops).replay later := List.foldl_append

/-- Recording in one round changes no other, whether it was begun or not. -/
theorem round_record_of_ne (c : Compiler) {round other : RoundId} (d : Declaration)
    (h : round ≠ other) : (c.record round d).1.round other = c.round other := by
  simp [Compiler.record, Compiler.round, h]

/-- No operation forgets a round. -/
theorem count_apply (w : World) (op : Operation) :
    w.compiler.rounds.length ≤ (w.apply op).compiler.rounds.length := by
  cases op with
  | register r =>
    rw [apply]
    split <;> exact Nat.le_refl _
  | declare d | call round d => simp [apply, Compiler.record]
  | clear | stage => simp [apply, Compiler.clear, Compiler.stage]
  | assignParents _ _ | build | adopt _ => exact Nat.le_refl _

/-- A round that was begun is not the current one after an operation, unless it was before or is
adopted. -/
theorem Apart.apply {round : RoundId} {w : World} (h : Apart round w) {op : Operation}
    (hop : op ≠ .adopt round) : Apart round (w.apply op) := by
  refine ⟨Nat.lt_of_lt_of_le h.begun (count_apply w op), ?_⟩
  cases op with
  | register r =>
    rw [World.apply]
    split <;> exact h.not_current
  | clear => exact (Nat.ne_of_lt h.begun).symm
  | adopt other => exact fun heq => hop (congrArg Operation.adopt heq)
  | assignParents _ _ | declare _ | call _ _ | build | stage => exact h.not_current

/-- A round apart holds what it held and what its setters declare. -/
theorem Apart.round_apply {round : RoundId} {w : World} (h : Apart round w) (op : Operation) :
    (w.apply op).compiler.round round =
      match op.callIn? round with
      | some d => ((w.compiler.round round).add d).1
      | none => w.compiler.round round := by
  cases op with
  | register r =>
    rw [World.apply]
    split <;> rfl
  | declare d =>
    exact round_record_of_ne _ d h.not_current
  | call other d =>
    change (w.compiler.record other d).1.round round = _
    by_cases hother : other = round
    · subst hother
      rw [Compiler.round_record _ _ _ _ h.begun]
      simp [Operation.callIn?]
    · simp only [Operation.callIn?, if_neg hother]
      exact round_record_of_ne _ d hother
  | clear | stage => exact Compiler.round_stage _ _
  | assignParents _ _ | build | adopt _ => rfl

/-- What a round apart ends up with is what its setters declared, in the order of their calls. -/
theorem Apart.round_replay {round : RoundId} {w : World} (h : Apart round w) {ops : List Operation}
    (hops : Operation.adopt round ∉ ops) :
    (w.replay ops).compiler.round round =
      (callsIn round ops).foldl (fun held d => (held.add d).1) (w.compiler.round round) := by
  induction ops generalizing w with
  | nil => rfl
  | cons op rest ih =>
    obtain ⟨hop, hrest⟩ := List.ne_and_not_mem_of_not_mem_cons hops
    rw [replay_cons, ih (h.apply (Ne.symm hop)) hrest, h.round_apply, callsIn, callsIn]
    cases hcall : op.callIn? round <;> simp [hcall]

/-- A round apart stays so in a run that does not adopt it. -/
theorem Apart.replay {round : RoundId} {w : World} (h : Apart round w) {ops : List Operation}
    (hops : Operation.adopt round ∉ ops) : Apart round (w.replay ops) := by
  induction ops generalizing w with
  | nil => exact h
  | cons op rest ih =>
    obtain ⟨hop, hrest⟩ := List.ne_and_not_mem_of_not_mem_cons hops
    exact ih (h.apply (Ne.symm hop)) hrest

theorem AgreeOutside.refl (round : RoundId) (w : World) : AgreeOutside round w w :=
  ⟨rfl, rfl, rfl, rfl, fun _ _ => rfl⟩

theorem AgreeOutside.symm {round : RoundId} {w w' : World} (h : AgreeOutside round w w') :
    AgreeOutside round w' w :=
  ⟨h.graph.symm, h.current.symm, h.published.symm, h.count.symm,
    fun other hother => (h.rounds other hother).symm⟩

theorem AgreeOutside.trans {round : RoundId} {w w' w'' : World} (h : AgreeOutside round w w')
    (h' : AgreeOutside round w' w'') : AgreeOutside round w w'' where
  graph := h'.graph.trans h.graph
  current := h'.current.trans h.current
  published := h'.published.trans h.published
  count := h'.count.trans h.count
  rounds other hother := (h'.rounds other hother).trans (h.rounds other hother)

/-- A call of a setter of a round shows in that round alone. -/
theorem agreeOutside_call (round : RoundId) (w : World) (d : Declaration) :
    AgreeOutside round (w.apply (.call round d)) w where
  graph := rfl
  current := rfl
  published := rfl
  count := by simp [World.apply, Compiler.record]
  rounds _ hother := (round_record_of_ne _ d (Ne.symm hother)).symm

/-- Recording in some round keeps two worlds the same outside another. -/
theorem AgreeOutside.record {round : RoundId} {w w' : World} (h : AgreeOutside round w w')
    (other : RoundId) (d : Declaration) :
    AgreeOutside round ⟨w.graph, (w.compiler.record other d).1⟩
      ⟨w'.graph, (w'.compiler.record other d).1⟩ where
  graph := h.graph
  current := h.current
  published := h.published
  count := by simpa [Compiler.record] using h.count
  rounds found hfound := by
    by_cases hother : other = found
    · subst hother
      by_cases hbegun : other < w.compiler.rounds.length
      · rw [Compiler.round_record _ _ _ _ hbegun, Compiler.round_record _ _ _ _ (h.count ▸ hbegun),
          h.rounds other hfound]
      · have hnone : w.compiler.rounds.length ≤ other := Nat.le_of_not_lt hbegun
        have hnone' : w'.compiler.rounds.length ≤ other := h.count ▸ hnone
        simp [Compiler.record, Compiler.round, hnone, hnone']
    · rw [round_record_of_ne _ d hother, round_record_of_ne _ d hother, h.rounds found hfound]

/-- Beginning a round keeps two worlds the same outside another. -/
theorem AgreeOutside.stage {round : RoundId} {w w' : World} (h : AgreeOutside round w w') :
    AgreeOutside round ⟨w.graph, w.compiler.stage.1⟩ ⟨w'.graph, w'.compiler.stage.1⟩ where
  graph := h.graph
  current := h.current
  published := h.published
  count := by simpa [Compiler.stage] using h.count
  rounds other hother := by
    rw [Compiler.round_stage, Compiler.round_stage, h.rounds other hother]

/-- An operation keeps two worlds the same outside a round that is neither current nor adopted. -/
theorem AgreeOutside.apply {round : RoundId} {w w' : World} (h : AgreeOutside round w w')
    (hcurrent : w.compiler.current ≠ round) {op : Operation} (hop : op ≠ .adopt round) :
    AgreeOutside round (w.apply op) (w'.apply op) := by
  cases op with
  | register r =>
    rw [World.apply, World.apply, h.graph]
    split
    · exact ⟨rfl, h.current, h.published, h.count, h.rounds⟩
    · exact h
  | assignParents name parents =>
    exact ⟨congrArg (Graph.assignParents · name parents) h.graph, h.current, h.published, h.count,
      h.rounds⟩
  | declare d =>
    have hrecord := h.record w.compiler.current d
    rw [World.apply, World.apply, h.current]
    exact hrecord
  | call other d => exact h.record other d
  | clear =>
    have hstage := h.stage
    exact ⟨h.graph, h.count, hstage.published, hstage.count, hstage.rounds⟩
  | build =>
    refine ⟨h.graph, h.current, ?_, h.count, h.rounds⟩
    change Snapshot.compile w'.graph (w'.compiler.round w'.compiler.current) = _
    rw [h.graph, h.current, h.rounds _ hcurrent]
    rfl
  | stage => exact h.stage
  | adopt other =>
    have hother : other ≠ round := fun heq => hop (congrArg Operation.adopt heq)
    refine ⟨h.graph, rfl, ?_, h.count, h.rounds⟩
    change Snapshot.compile w'.graph (w'.compiler.round other) = _
    rw [h.graph, h.rounds other hother]
    rfl

/-- Leaving out the calls of the setters of a round apart changes only that round. -/
theorem Apart.agreeOutside_replay {round : RoundId} {w w' : World} (h : Apart round w)
    (hagree : AgreeOutside round w w') {ops : List Operation}
    (hops : Operation.adopt round ∉ ops) :
    AgreeOutside round (w.replay ops) (w'.replay (withoutCallsIn round ops)) := by
  induction ops generalizing w w' with
  | nil => exact hagree
  | cons op rest ih =>
    obtain ⟨hop, hrest⟩ := List.ne_and_not_mem_of_not_mem_cons hops
    have hapart := h.apply (Ne.symm hop)
    by_cases hcall : op.isCallIn round = true
    · obtain ⟨d, rfl⟩ := Operation.isCallIn_iff.mp hcall
      have hkept : withoutCallsIn round (.call round d :: rest) = withoutCallsIn round rest := by
        simp [withoutCallsIn, hcall]
      rw [replay_cons, hkept]
      exact ih hapart ((agreeOutside_call round w d).trans hagree) hrest
    · have hkept : withoutCallsIn round (op :: rest) = op :: withoutCallsIn round rest := by
        simp [withoutCallsIn, hcall]
      rw [replay_cons, hkept, replay_cons]
      exact ih hapart (hagree.apply h.not_current (Ne.symm hop)) hrest

end World

end AccessMatrix.Session
