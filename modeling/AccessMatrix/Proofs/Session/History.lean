import AccessMatrix.Proofs.Outcome
import AccessMatrix.Proofs.Session.Operations
import AccessMatrix.Session.Run

/-!
# The operations of a run

Every command comes down to the operations that it did, in their order: those of its own, and for a
callback those of the rules that were followed, of nested commands included. Replaying them leads to
the same graph and the same compiler. A configuration begins a round, does what its callback does,
and adopts the round only if the callback ends without failure.
-/

namespace AccessMatrix.Session

open Outcome
open Policy (Compiler RoundId Setter)

/-- What a call of a setter does: a declaration in the round of the setter, if it makes one. -/
def setterOps (setter : Setter) (given : Given) : List Operation :=
  match setter, given with
  | .policy round context role subject, .ok (value?, named) =>
    match Setter.declaration context role subject value? named with
    | .ok d => [.call round d]
    | .error _ => []
  | _, _ => []

/-- What a rule does that reaches a setter: it calls the setter unless it is kept. -/
def Call.setOps (call : Call) (s : Session) (context role : Value) (form : Policy.Form)
    (keep? : Option Value) (given : Given) : List Operation :=
  match keep? with
  | some _ => []
  | none =>
    match (call.find s context).bind fun reach => reach.find form role with
    | .ok setter => setterOps setter given
    | .error _ => []

/-- What a step does once its references have been looked up. -/
def Step.performOps (step : Step) (s : Session) : List Operation :=
  let g := s.engine.graph
  match step with
  | .register r => [.register r]
  | .assignParents name parents =>
    match requireNamed g name, requireAll g parents with
    | .ok e, .ok parents => [.assignParents e.name (parents.map Entity.name)]
    | _, _ => []
  | .declare r =>
    match r.check g with
    | .ok d => [.declare d]
    | .error _ => []
  | .callKept label given =>
    match aside s.kept label with
    | .ok setter => setterOps setter given
    | .error _ => []
  | .build => [.build]
  | .clear => [.clear]
  | _ => []

/-- What a step does. -/
def Step.ops (step : Step) (s : Session) : List Operation :=
  match s.mentionAll step.mentions with
  | (.error _, _) => []
  | (.ok (), s) => step.performOps s

/-- What a callback does for one subject after the other, until it fails. -/
def visitOps (callback : String → Nat → Trace → Session → Visit)
    (ops : String → Nat → Trace → Session → List Operation) :
    List String → Trace → Session → List Operation
  | [], _, _ => []
  | subject :: rest, trace, s =>
    let trace := { trace with visited := trace.visited ++ [subject] }
    let visited := { s with visits := s.visits + 1 }
    ops subject s.visits trace visited ++
      match callback subject s.visits trace visited with
      | (.ok (), trace, s) => visitOps callback ops rest trace s
      | (.error _, _, _) => []

mutual

/-- What a command does. -/
def Command.ops : Command → Session → List Operation
  | .step step, s => step.ops s
  | .configure rules, s =>
    let (c, round) := s.engine.compiler.stage
    let contexts := s.engine.graph.contexts.map Entity.name
    let callback (subject : String) (visit : Nat) :=
      Rule.followAll rules ⟨round, contexts, subject, visit⟩
    let ops (subject : String) (visit : Nat) := Rule.allOps rules ⟨round, contexts, subject, visit⟩
    let names := s.engine.graph.names
    .stage :: visitOps callback ops names {} (s.withCompiler c) ++
      match visitAll callback names {} (s.withCompiler c) with
      | (.ok (), _, _) => [.adopt round]
      | (.error _, _, _) => []
  | .forEachSubject rules, s =>
    let round := s.engine.compiler.current
    let contexts := s.engine.graph.contexts.map Entity.name
    visitOps (fun subject visit => Rule.followAll rules ⟨round, contexts, subject, visit⟩)
      (fun subject visit => Rule.allOps rules ⟨round, contexts, subject, visit⟩)
      s.engine.graph.names {} s

/-- What the rules of a callback do, up to the first that fails. -/
def Rule.allOps : List Rule → Call → Trace → Session → List Operation
  | [], _, _, _ => []
  | rule :: rest, call, trace, s =>
    Rule.ops rule call trace s ++
      match Rule.follow rule call trace s with
      | (.ok (), trace, s) => Rule.allOps rest call trace s
      | (.error _, _, _) => []

/-- What a rule does. -/
def Rule.ops : Rule → Call → Trace → Session → List Operation
  | .mk subject? task, call, trace, s =>
    if subject?.all (·.asText? = some call.subject) then Task.ops task call trace s else []

/-- What a task does. -/
def Task.ops : Task → Call → Trace → Session → List Operation
  | .set context role form keep? given, call, _, s => call.setOps s context role form keep? given
  | .fail _, _, _, _ => []
  | .probe, _, _, _ => []
  | .run command, _, _, s => Command.ops command s
  | .attempt caught body handler, call, trace, s =>
    Rule.allOps body call trace s ++
      match Rule.followAll body call trace s with
      | (.ok (), _, _) => []
      | (.error e, trace, s) => if caught e then Rule.allOps handler call trace s else []

end

/-- The worlds that a run leads through: operations one after the other, and configurations, which
adopt the round that they began or fail. -/
inductive Runs : World → List Operation → World → Prop where
  | plain {w : World} {ops : List Operation} (h : ∀ op ∈ ops, op.isPlain = true) :
    Runs w ops (w.replay ops)
  | append {w w' w'' : World} {ops later : List Operation} (h : Runs w ops w')
    (h' : Runs w' later w'') : Runs w (ops ++ later) w''
  | failed {w w' : World} {ops : List Operation} (h : Runs (w.apply .stage) ops w') :
    Runs w (.stage :: ops) w'
  | configured {w w' : World} {ops : List Operation} (h : Runs (w.apply .stage) ops w') :
    Runs w (.stage :: ops ++ [.adopt w.compiler.rounds.length])
      (w'.apply (.adopt w.compiler.rounds.length))

namespace Runs

/-- Doing nothing leads nowhere else. -/
theorem nil (w : World) : Runs w [] w := plain (by simp)

/-- A run leads where its operations lead. -/
theorem eq_replay {w w' : World} {ops : List Operation} (h : Runs w ops w') : w' = w.replay ops := by
  induction h with
  | plain => rfl
  | append _ _ ih ih' => rw [World.replay_append, ← ih, ih']
  | failed _ ih => exact ih
  | configured _ ih =>
    rw [World.replay_append, ih]
    rfl

/-- No round is forgotten in a run. -/
theorem count_le {w w' : World} {ops : List Operation} (h : Runs w ops w') :
    w.compiler.rounds.length ≤ w'.compiler.rounds.length := by
  rw [h.eq_replay]
  clear h
  induction ops generalizing w with
  | nil => exact Nat.le_refl _
  | cons op rest ih => exact Nat.le_trans (World.count_apply w op) ih

/-- A run adopts only rounds that were begun in it. -/
theorem adopted {w w' : World} {ops : List Operation} (h : Runs w ops w') {round : RoundId}
    (hround : .adopt round ∈ ops) : w.compiler.rounds.length ≤ round := by
  induction h with
  | plain hplain => exact absurd (hplain _ hround) (by simp [Operation.isPlain])
  | append h _ ih ih' =>
    rcases List.mem_append.mp hround with hround | hround
    · exact ih hround
    · exact Nat.le_trans h.count_le (ih' hround)
  | @failed w _ _ _ ih =>
    have hlater := ih ((List.mem_cons.mp hround).resolve_left (by simp))
    exact Nat.le_trans (World.count_apply w .stage) hlater
  | @configured w _ _ _ ih =>
    rcases List.mem_append.mp hround with hround | hround
    · have hlater := ih ((List.mem_cons.mp hround).resolve_left (by simp))
      exact Nat.le_trans (World.count_apply w .stage) hlater
    · obtain rfl : round = w.compiler.rounds.length := by simpa using hround
      exact Nat.le_refl _

/-- What every operation keeps that adopts no round but a begun one, a run keeps. -/
theorem keeps {motive : World → Prop}
    (hstep : ∀ w op, motive w → (∀ round, op = .adopt round → round < w.compiler.rounds.length) →
      motive (w.apply op))
    {w w' : World} {ops : List Operation} (h : Runs w ops w') (hw : motive w) : motive w' := by
  induction h with
  | @plain w ops hplain =>
    induction ops generalizing w with
    | nil => exact hw
    | cons op rest ih =>
      obtain ⟨hop, hrest⟩ := List.forall_mem_cons.mp hplain
      refine ih hrest (hstep w op hw ?_)
      intro round hround
      subst hround
      exact absurd hop (by simp [Operation.isPlain])
  | append _ _ ih ih' => exact ih' (ih hw)
  | failed _ ih => exact ih (hstep _ _ hw (by simp))
  | @configured w w' _ h ih =>
    refine hstep _ _ (ih (hstep _ _ hw (by simp))) ?_
    intro round hround
    obtain rfl := Operation.adopt.inj hround
    refine Nat.lt_of_lt_of_le ?_ h.count_le
    simp [World.apply, Compiler.stage]

/-- The current round of a world stays one that was begun. -/
theorem begun {w w' : World} {ops : List Operation} (h : Runs w ops w') (hw : w.Begun) :
    w'.Begun := by
  refine h.keeps (fun w op hw hadopt => ?_) hw
  cases op with
  | register r =>
    rw [World.apply]
    split <;> exact hw
  | clear => simp [World.Begun, World.apply, Compiler.clear, Compiler.stage]
  | adopt round => exact hadopt round rfl
  | declare d | call round d | stage => exact Nat.lt_of_lt_of_le hw (World.count_apply w _)
  | assignParents name parents | build => exact hw

end Runs

/-- Looking up a reference leaves the world as it is. -/
theorem world_mention {s next : Session} {ref : Ref} (h : s.mention ref = .ok next) :
    next.world = s.world := by
  cases ref with
  | own name =>
    rw [mention] at h
    split at h
    · exact congrArg world (Except.ok.inj h).symm
    · contradiction
  | foreign name =>
    rw [mention] at h
    split at h
    · exact congrArg world (Except.ok.inj h).symm
    · obtain ⟨⟨g, e⟩, -, rfl⟩ := map_eq_ok.mp h
      rfl
  | value v => exact congrArg world (Except.ok.inj h).symm

/-- Looking up references leaves the world as it is. -/
theorem world_mentionAll (s : Session) (refs : List Ref) : (s.mentionAll refs).2.world = s.world := by
  induction refs generalizing s with
  | nil => rfl
  | cons ref rest ih =>
    rw [mentionAll]
    split
    · rfl
    · rename_i next hnext
      rw [ih, world_mention hnext]

/-- Where a result leaves a session: a failure leaves it as it is. -/
def outcomeWorld {α : Type} (s : Session) (world : α → World) : Except Error α → World
  | .ok a => world a
  | .error _ => s.world

/-- A call of a setter leads where what it declares leads. -/
theorem world_callSetter (s : Session) (setter : Setter) (given : Given) :
    outcomeWorld s world (do
        let (value?, named) ← given
        s.callSetter setter value? named) = s.world.replay (setterOps setter given) := by
  cases given with
  | error e => cases setter <;> rfl
  | ok arguments =>
    obtain ⟨value?, named⟩ := arguments
    change outcomeWorld s world (s.callSetter setter value? named) = _
    cases setter with
    | policy round context role subject =>
      simp only [callSetter, Setter.call, setterOps]
      cases Setter.declaration context role subject value? named <;> rfl
    | member id made m =>
      simp only [callSetter, Setter.call]
      cases Error.ofMisuse (m.call ((s.views.get? id).getD made) value? named) <;> rfl
    | value kind title =>
      simp only [callSetter, Setter.call]
      cases Policy.namedEntries title named <;> rfl

/-- Answering changes no session. -/
theorem outcomeWorld_map {α β : Type} (s : Session) (world : β → World) (answer : α → β)
    (result : Except Error α) :
    outcomeWorld s world (result.map answer) = outcomeWorld s (fun a => world (answer a)) result := by
  cases result <;> rfl

/-- What is done as a whole leaves the session as it is, or what its success leads to. -/
theorem of_whole {motive : Session → Prop} {s : Session} {result : Except Error (Reply × Session)}
    (hs : motive s) (h : ∀ {reply next}, result = .ok (reply, next) → motive next) :
    motive (s.whole result).2 := by
  obtain e | ⟨reply, next⟩ := result
  · exact hs
  · exact h rfl

/-- What is done as a whole leads where its success leads. -/
theorem world_whole (s : Session) (result : Except Error (Reply × Session)) :
    (s.whole result).2.world = outcomeWorld s (·.2.world) result := by
  obtain e | ⟨reply, next⟩ := result <;> rfl

/-- A result that rests on another one leads nowhere if the rest does not. -/
theorem outcomeWorld_bind {α β : Type} (s : Session) (world : β → World) (result : Except Error α)
    (next : α → Except Error β) (h : ∀ a, outcomeWorld s world (next a) = s.world) :
    outcomeWorld s world (result >>= next) = s.world := by
  cases result with
  | error e => rfl
  | ok a => exact h a

/-- What only answers leaves the world as it is. -/
theorem world_whole_map {α : Type} (s : Session) (result : Except Error α)
    (answer : α → Reply × Session) (h : ∀ a, (answer a).2.world = s.world) :
    (s.whole (result.map answer)).2.world = s.world := by
  cases result with
  | error e => rfl
  | ok a => exact h a

/-- What only answers, and needs other results for it, leaves the world as it is. -/
theorem world_whole_bind {α : Type} (s : Session) (result : Except Error α)
    (next : α → Except Error (Reply × Session))
    (h : ∀ a, outcomeWorld s (·.2.world) (next a) = s.world) :
    (s.whole (result >>= next)).2.world = s.world := by
  rw [world_whole]
  exact outcomeWorld_bind s _ result next h

/-- A question leaves the world as it is. -/
theorem world_asked {α : Type} (s : Session) (asked : Evaluation.Asked α) (reply : α → Reply) :
    (s.asked asked reply).2.world = s.world := rfl

/-- A step leads where its operations lead, and where it fails they do nothing. -/
theorem Step.world_perform (step : Step) (s : Session) :
    (step.perform s).2.world = s.world.replay (step.performOps s) := by
  cases step with
  | register r =>
    simp only [Step.perform, Session.register, Step.performOps, World.replay_cons, World.apply, world]
    cases s.engine.graph.register r <;> rfl
  | assignParents name parents =>
    simp only [Step.perform, world_whole, Step.performOps]
    cases requireNamed s.engine.graph name with
    | error e => rfl
    | ok e => cases requireAll s.engine.graph parents <;> rfl
  | declare r =>
    simp only [Step.perform, world_whole, Step.performOps]
    cases r.check s.engine.graph <;> rfl
  | callKept label given =>
    simp only [Step.perform, world_whole, Session.callKept, Step.performOps]
    cases aside s.kept label with
    | error e => rfl
    | ok setter =>
      rw [← world_callSetter]
      exact outcomeWorld_map s _ _ _
  | build => rfl
  | clear => rfl
  | registerAgain ref => exact world_whole_map s _ _ fun _ => rfl
  | entity name => exact world_whole_map s _ _ fun _ => rfl
  | require ref => exact world_whole_map s _ _ fun _ => rfl
  | contains ref => exact world_whole_map s _ _ fun _ => rfl
  | compareRoles a b => exact world_whole_map s _ _ fun _ => rfl
  | hold label => exact world_whole_map s _ _ fun _ => rfl
  | compiled held => exact world_whole_map s _ _ fun _ => rfl
  | declared context role subject subjectRole => exact world_whole_map s _ _ fun _ => rfl
  | hierarchy => exact world_whole_map s _ _ fun _ => rfl
  | allowanceFor subject action => exact world_whole_bind s _ _ fun _ => rfl
  | cell context role subject subjectRole => exact world_whole_bind s _ _ fun _ => rfl
  | role context name =>
    exact world_whole_bind s _ _ fun _ => outcomeWorld_bind s _ _ _ fun _ => rfl
  | paths name => exact world_whole_bind s _ _ fun _ => outcomeWorld_bind s _ _ _ fun _ => rfl
  | relationships names =>
    exact world_whole_bind s _ _ fun _ => outcomeWorld_bind s _ _ _ fun _ => rfl
  | isAllowed memberships action subject => exact world_asked s _ _
  | explain memberships action subject => exact world_asked s _ _
  | actorPolicies memberships subject => exact world_asked s _ _
  | resolve memberships subject => exact world_asked s _ _
  | graph | adaptMemberships _ | adaptSubjects _ | refused _ _ => rfl

/-- A step leads where its operations lead, whatever it mentions. -/
theorem Step.world_run (step : Step) (s : Session) :
    (step.run s).2.world = s.world.replay (step.ops s) := by
  have hmention := world_mentionAll s step.mentions
  rw [Step.run, Step.ops]
  generalize s.mentionAll step.mentions = mentioned at hmention ⊢
  obtain ⟨_ | ⟨⟩, next⟩ := mentioned
  · exact hmention
  · dsimp only
    rw [← hmention, Step.world_perform]

/-- No call of a setter begins a configuration or ends one. -/
theorem setterOps_plain (setter : Setter) (given : Given) :
    ∀ op ∈ setterOps setter given, op.isPlain = true := by
  cases setter with
  | policy round context role subject =>
    cases given with
    | error e => simp [setterOps]
    | ok arguments =>
      simp only [setterOps]
      split <;> simp [Operation.isPlain]
  | _ => simp [setterOps]

/-- No step begins a configuration or ends one. -/
theorem Step.ops_plain (step : Step) (s : Session) : ∀ op ∈ step.ops s, op.isPlain = true := by
  rw [Step.ops]
  split
  · simp
  · cases step with
    | assignParents name parents =>
      simp only [Step.performOps]
      split <;> simp [Operation.isPlain]
    | declare r =>
      simp only [Step.performOps]
      split <;> simp [Operation.isPlain]
    | callKept label given =>
      simp only [Step.performOps]
      split
      · exact setterOps_plain _ _
      · simp
    | _ => simp [Step.performOps, Operation.isPlain]

/-- A callback leads from subject to subject where its operations lead. -/
theorem runs_visitOps (callback : String → Nat → Trace → Session → Visit)
    {ops : String → Nat → Trace → Session → List Operation}
    (h : ∀ subject visit trace s,
      Runs s.world (ops subject visit trace s) (callback subject visit trace s).2.2.world)
    (subjects : List String) (trace : Trace) (s : Session) :
    Runs s.world (visitOps callback ops subjects trace s)
      (visitAll callback subjects trace s).2.2.world := by
  induction subjects generalizing trace s with
  | nil => exact .nil _
  | cons subject rest ih =>
    rw [visitOps, visitAll]
    have hvisit := h subject s.visits { trace with visited := trace.visited ++ [subject] }
      { s with visits := s.visits + 1 }
    generalize callback subject s.visits _ _ = visit at hvisit ⊢
    obtain ⟨_ | ⟨⟩, trace, next⟩ := visit
    · rw [List.append_nil]
      exact hvisit
    · exact hvisit.append (ih trace next)

/-- A rule that reaches a setter leads where the setter's call leads. -/
theorem Call.runs_setOps (call : Call) (s : Session) (context role : Value) (form : Policy.Form)
    (keep? : Option Value) (given : Given) :
    Runs s.world (call.setOps s context role form keep? given)
      (outcomeWorld s world (call.set s context role form keep? given)) := by
  unfold Call.setOps Call.set
  cases hreach : call.find s context with
  | error misuse => cases keep? <;> exact .nil _
  | ok reach =>
    change Runs s.world _ (outcomeWorld s world (Error.ofMisuse (reach.find form role) >>= _))
    cases hsetter : reach.find form role with
    | error misuse => cases keep? <;> simp only [Except.bind, hsetter] <;> exact .nil _
    | ok setter =>
      cases keep? with
      | some label =>
        change Runs s.world [] (outcomeWorld s world (putAside s.kept label setter >>= _))
        rw [outcomeWorld_bind s _ _ _ fun _ => rfl]
        exact .nil _
      | none =>
        simp only [Except.bind, hsetter]
        change Runs s.world _ (outcomeWorld s world (do
          let (value?, named) ← given
          s.callSetter setter value? named))
        rw [world_callSetter]
        exact .plain (setterOps_plain _ _)

mutual

/-- Every command leads where its operations lead. -/
theorem Command.runs_ops : (command : Command) → (s : Session) →
    Runs s.world (command.ops s) (command.run s).2.2.world
  | .step step, s => by
    simp only [Command.run, Command.ops, Step.world_run]
    exact .plain (step.ops_plain s)
  | .configure rules, s => by
    have hvisits := runs_visitOps
      (fun subject visit => Rule.followAll rules
        ⟨s.engine.compiler.stage.2, s.engine.graph.contexts.map Entity.name, subject, visit⟩)
      (fun subject visit trace s => Rule.runs_allOps rules _ trace s) s.engine.graph.names {}
      (s.withCompiler s.engine.compiler.stage.1)
    simp only [Command.run, Command.ops]
    generalize visitAll _ s.engine.graph.names {} _ = visits at hvisits ⊢
    obtain ⟨_ | ⟨⟩, trace, next⟩ := visits
    · rw [List.append_nil]
      exact Runs.failed (w := s.world) hvisits
    · exact Runs.configured (w := s.world) hvisits
  | .forEachSubject rules, s => by
    simp only [Command.run, Command.ops]
    exact runs_visitOps _ (fun _ _ trace s => Rule.runs_allOps rules _ trace s) _ _ _

theorem Rule.runs_allOps : (rules : List Rule) → (call : Call) → (trace : Trace) → (s : Session) →
    Runs s.world (Rule.allOps rules call trace s) (Rule.followAll rules call trace s).2.2.world
  | [], call, trace, s => .nil _
  | rule :: rest, call, trace, s => by
    have hrule := Rule.runs_ops rule call trace s
    rw [Rule.allOps, Rule.followAll]
    generalize Rule.follow rule call trace s = followed at hrule ⊢
    obtain ⟨_ | ⟨⟩, trace, next⟩ := followed
    · rw [List.append_nil]
      exact hrule
    · exact hrule.append (Rule.runs_allOps rest call trace next)

theorem Rule.runs_ops : (rule : Rule) → (call : Call) → (trace : Trace) → (s : Session) →
    Runs s.world (Rule.ops rule call trace s) (Rule.follow rule call trace s).2.2.world
  | .mk subject? task, call, trace, s => by
    rw [Rule.ops, Rule.follow]
    split
    · exact Task.runs_ops task call trace s
    · exact .nil _

theorem Task.runs_ops : (task : Task) → (call : Call) → (trace : Trace) → (s : Session) →
    Runs s.world (Task.ops task call trace s) (Task.perform task call trace s).2.2.world
  | .set context role form keep? given, call, trace, s => by
    have hset := call.runs_setOps s context role form keep? given
    rw [Task.ops, Task.perform]
    generalize call.set s context role form keep? given = result at hset ⊢
    cases result <;> exact hset
  | .fail error, call, trace, s => .nil _
  | .probe, call, trace, s => by
    rw [Task.ops, Task.perform]
    split <;> exact .nil _
  | .run command, call, trace, s => by
    rw [Task.ops, Task.perform]
    exact Command.runs_ops command s
  | .attempt caught body handler, call, trace, s => by
    have hbody := Rule.runs_allOps body call trace s
    rw [Task.ops, Task.perform]
    generalize Rule.followAll body call trace s = followed at hbody ⊢
    obtain ⟨e | ⟨⟩, trace, next⟩ := followed
    · dsimp only
      split
      · exact hbody.append (Rule.runs_allOps handler call trace next)
      · rw [List.append_nil]
        exact hbody
    · rw [List.append_nil]
      exact hbody

end

/-- The session after some commands. -/
def after (s : Session) (commands : List Command) : Session :=
  commands.foldl (fun s command => (command.run s).2.2) s

/-- What some commands do one after the other. -/
def opsOf (s : Session) : List Command → List Operation
  | [] => []
  | command :: rest => command.ops s ++ opsOf (command.run s).2.2 rest

/-- Commands lead where their operations lead. -/
theorem runs_opsOf (s : Session) (commands : List Command) :
    Runs s.world (s.opsOf commands) (s.after commands).world := by
  induction commands generalizing s with
  | nil => exact .nil _
  | cons command rest ih => exact (command.runs_ops s).append (ih _)

end AccessMatrix.Session
