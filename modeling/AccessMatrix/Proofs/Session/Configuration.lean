import AccessMatrix.Proofs.Session.Independence

/-!
# Configurations are all or nothing

A configuration declares in a round of its own. If its callback fails, that round is never seen: the
declarations and the published snapshot are those that the nested commands alone led to, and so they
are after whatever comes later. If it ends without failure, the declarations are the calls of the
configuration's own setters, and the published snapshot is their compilation.
-/

namespace AccessMatrix.Session

open Outcome
open Policy (Round RoundId Setter Snapshot)

/-- The round that a configuration works on. -/
def ownRound (s : Session) : RoundId := s.engine.compiler.rounds.length

mutual

/-- Whether a rule runs a command of the session. -/
def Rule.nests : Rule → Bool
  | .mk _ task => Task.nests task

/-- Whether a task runs a command of the session, be it in a body that is tried or in its handler. -/
def Task.nests : Task → Bool
  | .run _ => true
  | .attempt _ body handler => Rule.anyNests body || Rule.anyNests handler
  | _ => false

/-- Whether any of some rules runs a command of the session. -/
def Rule.anyNests : List Rule → Bool
  | [] => false
  | rule :: rest => Rule.nests rule || Rule.anyNests rest

end

theorem Rule.anyNests_eq_false {rules : List Rule} :
    Rule.anyNests rules = false ↔ ∀ rule ∈ rules, rule.nests = false := by
  induction rules with
  | nil => simp [Rule.anyNests]
  | cons rule rest ih => simp [Rule.anyNests, ih]

/-- An error that a configuration refuses, or that it reports a failure by, is of its family. -/
theorem kind_of_isConfiguration {error : Error} (h : error.isConfiguration = true) :
    error.kind = Family.configuration.name := by
  cases error with
  | policy cause | callback subject cause => rfl
  | stated family text =>
    obtain rfl : family = .configuration := by simpa [Error.isConfiguration] using h
    rfl
  | _ => contradiction

/-- A callback fails for a subject with a cause: it ends well for the subjects before it, one after the
other, and fails for this one. -/
inductive FailsFor (callback : String → Nat → Trace → Session → Visit) (subject : String)
    (cause : Error) : List String → Trace → Session → Prop
  | here {rest : List String} {trace : Trace} {s : Session}
      (h : (callback subject s.visits { trace with visited := trace.visited ++ [subject] }
        { s with visits := s.visits + 1 }).1 = .error cause) :
      FailsFor callback subject cause (subject :: rest) trace s
  | later {earlier : String} {rest : List String} {trace trace' : Trace} {s next : Session}
      (h : callback earlier s.visits { trace with visited := trace.visited ++ [earlier] }
        { s with visits := s.visits + 1 } = (.ok (), trace', next))
      (hrest : FailsFor callback subject cause rest trace' next) :
      FailsFor callback subject cause (earlier :: rest) trace s

theorem FailsFor.mem {callback : String → Nat → Trace → Session → Visit} {subject : String}
    {cause : Error} {subjects : List String} {trace : Trace} {s : Session}
    (h : FailsFor callback subject cause subjects trace s) : subject ∈ subjects := by
  induction h with
  | here _ => exact List.mem_cons_self
  | later _ _ ih => exact List.mem_cons_of_mem _ ih

/-- A failure of a callback is reported as what comes of its cause. -/
theorem visitAll_error {callback : String → Nat → Trace → Session → Visit} {subjects : List String}
    {trace : Trace} {s : Session} {error : Error}
    (h : (visitAll callback subjects trace s).1 = .error error) :
    ∃ subject cause, FailsFor callback subject cause subjects trace s ∧
      error = callbackError
        ((visitAll callback subjects trace s).2.2.engine.graph.labelOf subject) cause := by
  induction subjects generalizing trace s with
  | nil => contradiction
  | cons subject rest ih =>
    rw [visitAll] at h ⊢
    cases hvisit : callback subject s.visits { trace with visited := trace.visited ++ [subject] }
      { s with visits := s.visits + 1 } with
    | mk result left =>
      obtain ⟨trace', next⟩ := left
      rw [hvisit] at h
      cases result with
      | error cause =>
        exact ⟨subject, cause, .here (congrArg Prod.fst hvisit), (Except.error.inj h).symm⟩
      | ok _ =>
        obtain ⟨failing, cause, hfails, herror⟩ := ih h
        exact ⟨failing, cause, .later hvisit hfails, herror⟩

/-- What a configuration fails with when its callback fails for a subject: an error of its own family,
which is the cause or tells of it. Only an interruption passes as it is, and only a cause whose text
holds an integer of too many digits cannot be told of. -/
def ReportedAs (subject : Name) (cause error : Error) : Prop :=
  error.kind = Family.configuration.name ∧ (error = cause ∨ error = .callback subject cause) ∨
    cause.isInterruption = true ∧ error = cause ∨
    cause.hasText = false ∧ error = .misuse .tooManyDigits

theorem reportedAs_callbackError (subject : Name) (cause : Error) :
    ReportedAs subject cause (callbackError subject cause) := by
  unfold callbackError
  cases hconfiguration : cause.isConfiguration with
  | true => exact .inl ⟨kind_of_isConfiguration hconfiguration, .inl rfl⟩
  | false =>
    cases hinterruption : cause.isInterruption with
    | true => exact .inr (.inl ⟨hinterruption, rfl⟩)
    | false =>
      cases htext : cause.hasText with
      | true => exact .inl ⟨rfl, .inr rfl⟩
      | false => exact .inr (.inr ⟨htext, rfl⟩)

/-- A callback finds the setters of a context that it sees under the text of a value. -/
theorem Call.find_ok {call : Call} {s : Session} {context : Value} {reach : Policy.Reach}
    (h : call.find s context = .ok reach) :
    ∃ name ∈ call.contexts, context.asText? = some name ∧ reach = call.reach s name := by
  obtain ⟨_, -, h⟩ := bind_eq_ok.mp h
  split at h
  · rename_i name hname
    obtain rfl := pure_eq_ok.mp h
    obtain ⟨htext, hseen⟩ := Option.filter_eq_some_iff.mp hname
    exact ⟨name, of_decide_eq_true hseen, htext, rfl⟩
  · contradiction

/-- A callback reaches setters of its own round. -/
theorem Call.find_round {call : Call} {s : Session} {context : Value} {reach : Policy.Reach}
    (h : call.find s context = .ok reach) : reach.round = call.round := by
  obtain ⟨name, -, -, rfl⟩ := Call.find_ok h
  rfl

theorem reach_setter_round {reach : Policy.Reach} {found : Policy.Reached} {round : RoundId}
    {context role subject : Name} (h : reach.setter found = .policy round context role subject) :
    round = reach.round := by
  cases found with
  | role label => exact (Setter.policy.inj h).1.symm
  | value v => contradiction

theorem reach_find_round {reach : Policy.Reach} {form : Policy.Form} {role : Value}
    {round : RoundId} {context label subject : Name}
    (h : reach.find form role = .ok (.policy round context label subject)) :
    round = reach.round := by
  cases form with
  | item =>
    obtain ⟨found, -, h⟩ := map_eq_ok.mp h
    exact reach_setter_round h
  | member =>
    obtain ⟨name, -, h⟩ := bind_eq_ok.mp h
    rw [Policy.Reach.byMember] at h
    split at h
    · simp at h
    · split at h <;> simp at h
    · obtain ⟨found, -, h⟩ := map_eq_ok.mp h
      exact reach_setter_round h
    · obtain ⟨found, -, h⟩ := map_eq_ok.mp h
      exact reach_setter_round h
    · rw [Policy.Reach.ofMember] at h
      split at h <;> simp at h

/-- All that a rule does which reaches a setter is to call it in the callback's round. -/
theorem Call.setOps_calls (call : Call) (s : Session) (context role : Value) (form : Policy.Form)
    (keep? : Option Value) (given : Given) :
    ∀ op ∈ call.setOps s context role form keep? given, op.isCallIn call.round = true := by
  intro op hop
  unfold Call.setOps at hop
  cases keep? with
  | some label => contradiction
  | none =>
    cases hreach : (call.find s context).bind fun reach => reach.find form role with
    | error misuse => simp [hreach] at hop
    | ok setter =>
      obtain ⟨reach, hcontext, hrole⟩ := bind_eq_ok.mp hreach
      simp only [hreach] at hop
      unfold setterOps at hop
      split at hop
      · split at hop
        · obtain rfl := List.mem_singleton.mp hop
          have hround := (reach_find_round hrole).trans (Call.find_round hcontext)
          exact Operation.isCallIn_iff.mpr ⟨_, congrArg (Operation.call · _) hround⟩
        · contradiction
      · contradiction

mutual

/-- Rules that run no command only call setters of their callback's round. -/
theorem Rule.allOps_calls : (rules : List Rule) → Rule.anyNests rules = false → (call : Call) →
    (trace : Trace) → (s : Session) →
    ∀ op ∈ Rule.allOps rules call trace s, op.isCallIn call.round = true
  | [], _, call, trace, s => by simp [Rule.allOps]
  | rule :: rest, h, call, trace, s => by
    rw [Rule.anyNests, Bool.or_eq_false_iff] at h
    rw [Rule.allOps]
    refine List.forall_mem_append.mpr ⟨Rule.ops_calls rule h.1 call trace s, ?_⟩
    split
    · exact Rule.allOps_calls rest h.2 call _ _
    · simp

theorem Rule.ops_calls : (rule : Rule) → rule.nests = false → (call : Call) → (trace : Trace) →
    (s : Session) → ∀ op ∈ Rule.ops rule call trace s, op.isCallIn call.round = true
  | .mk subject? task, h, call, trace, s => by
    rw [Rule.nests] at h
    rw [Rule.ops]
    split
    · exact Task.ops_calls task h call trace s
    · simp

theorem Task.ops_calls : (task : Task) → task.nests = false → (call : Call) → (trace : Trace) →
    (s : Session) → ∀ op ∈ Task.ops task call trace s, op.isCallIn call.round = true
  | .set context role form keep? given, _, call, trace, s => by
    rw [Task.ops]
    exact call.setOps_calls s context role form keep? given
  | .fail error, _, call, trace, s => by simp [Task.ops]
  | .probe, _, call, trace, s => by simp [Task.ops]
  | .run command, h, call, trace, s => by simp [Task.nests] at h
  | .attempt caught body handler, h, call, trace, s => by
    rw [Task.nests, Bool.or_eq_false_iff] at h
    rw [Task.ops]
    refine List.forall_mem_append.mpr ⟨Rule.allOps_calls body h.1 call trace s, ?_⟩
    split
    · simp
    · split
      · exact Rule.allOps_calls handler h.2 call _ _
      · simp

end

/-- What holds of all that a callback does for one subject holds of all that it does. -/
theorem forall_mem_visitOps {callback : String → Nat → Trace → Session → Visit}
    {ops : String → Nat → Trace → Session → List Operation} {motive : Operation → Prop}
    (h : ∀ subject visit trace s, ∀ op ∈ ops subject visit trace s, motive op)
    (subjects : List String) (trace : Trace) (s : Session) :
    ∀ op ∈ visitOps callback ops subjects trace s, motive op := by
  induction subjects generalizing trace s with
  | nil => simp [visitOps]
  | cons subject rest ih =>
    rw [visitOps]
    refine List.forall_mem_append.mpr ⟨h _ _ _ _, ?_⟩
    split
    · exact ih _ _
    · simp

/-- The callback of a configuration. -/
def ownCallback (rules : List Rule) (s : Session) (subject : String) (visit : Nat) :
    Trace → Session → Visit :=
  Rule.followAll rules ⟨s.ownRound, s.engine.graph.contexts.map Entity.name, subject, visit⟩

/-- What the callback of a configuration leaves. -/
def ownVisits (rules : List Rule) (s : Session) : Visit :=
  visitAll (ownCallback rules s) s.engine.graph.names {} (s.withCompiler s.engine.compiler.stage.1)

/-- What a configuration does between the beginning of its round and its end. -/
def innerOps (rules : List Rule) (s : Session) : List Operation :=
  visitOps (ownCallback rules s)
    (fun subject visit => Rule.allOps rules
      ⟨s.ownRound, s.engine.graph.contexts.map Entity.name, subject, visit⟩)
    s.engine.graph.names {} (s.withCompiler s.engine.compiler.stage.1)

theorem runs_innerOps (rules : List Rule) (s : Session) :
    Runs (s.world.apply .stage) (innerOps rules s) (ownVisits rules s).2.2.world :=
  runs_visitOps (ownCallback rules s) (fun _ _ trace s => Rule.runs_allOps rules _ trace s)
    s.engine.graph.names {} (s.withCompiler s.engine.compiler.stage.1)

/-- A configuration ends in one of two ways: its callback failed and nothing more is done, or its
round is adopted. -/
theorem configure_cases (rules : List Rule) (s : Session) :
    let ran := Command.run (.configure rules) s
    (∃ error, ran.1 = .error error ∧
      (∃ subject cause, FailsFor (ownCallback rules s) subject cause s.engine.graph.names {}
          (s.withCompiler s.engine.compiler.stage.1) ∧
        error = callbackError (ran.2.2.engine.graph.labelOf subject) cause) ∧
      Command.ops (.configure rules) s = .stage :: innerOps rules s ∧
      ran.2.2.world = (ownVisits rules s).2.2.world) ∨
    (∃ reply, ran.1 = .ok reply ∧
      Command.ops (.configure rules) s = .stage :: innerOps rules s ++ [.adopt s.ownRound] ∧
      ran.2.2.world = (ownVisits rules s).2.2.world.apply (.adopt s.ownRound)) := by
  have herror {error : Error} (h : (ownVisits rules s).1 = .error error) := visitAll_error h
  have hround : s.engine.compiler.stage.2 = s.ownRound := rfl
  unfold innerOps ownVisits ownCallback at *
  simp only [Command.run, Command.ops, hround]
  generalize visitAll _ s.engine.graph.names {} _ = visits at herror ⊢
  obtain ⟨_ | ⟨⟩, trace, next⟩ := visits
  · exact .inl ⟨_, rfl, herror rfl, List.append_nil _, rfl⟩
  · exact .inr ⟨_, rfl, rfl, rfl⟩

/-- The round of a configuration is apart from what it begins in. -/
theorem apart_stage {s : Session} (h : s.world.Begun) :
    World.Apart s.ownRound (s.world.apply .stage) where
  begun := by simp [World.apply, Policy.Compiler.stage, ownRound, world]
  not_current := Nat.ne_of_lt h

/-- The round of a configuration is adopted by nothing that its callback does. -/
theorem adopt_notMem_innerOps (rules : List Rule) (s : Session) :
    .adopt s.ownRound ∉ innerOps rules s := by
  intro hadopt
  have hlater := (runs_innerOps rules s).adopted hadopt
  simp only [World.apply, Policy.Compiler.stage, ownRound, world, List.length_append,
    List.length_singleton] at hlater
  omega

/-- After a configuration that failed, everything but its own round is as its nested commands alone
leave it, whatever comes later. -/
theorem agreeOutside_failed {s : Session} (h : s.world.Begun) (rules : List Rule)
    (hops : Command.ops (.configure rules) s = .stage :: innerOps rules s) (later : List Command) :
    let next := (Command.run (.configure rules) s).2.2
    let all := Command.ops (.configure rules) s ++ next.opsOf later
    World.Apart s.ownRound (next.after later).world ∧
      World.AgreeOutside s.ownRound (next.after later).world
        (s.world.replay (withoutCallsIn s.ownRound all)) := by
  intro next all
  have hrun : Runs s.world (Command.ops (.configure rules) s) next.world :=
    Command.runs_ops (.configure rules) s
  have hlater := runs_opsOf next later
  have hnext : next.world = (s.world.apply .stage).replay (innerOps rules s) := by
    rw [hrun.eq_replay, hops]
    rfl
  have hbegun : s.ownRound < next.world.compiler.rounds.length :=
    hnext ▸ ((apart_stage h).replay (adopt_notMem_innerOps rules s)).begun
  have hadopt : .adopt s.ownRound ∉ innerOps rules s ++ next.opsOf later := by
    rw [List.mem_append, not_or]
    refine ⟨adopt_notMem_innerOps rules s, fun hadopt => ?_⟩
    exact absurd (hlater.adopted hadopt) (Nat.not_le_of_lt hbegun)
  have hworld : (next.after later).world =
      (s.world.apply .stage).replay (innerOps rules s ++ next.opsOf later) := by
    rw [(hrun.append hlater).eq_replay, hops]
    rfl
  have hkept : withoutCallsIn s.ownRound all =
      .stage :: withoutCallsIn s.ownRound (innerOps rules s ++ next.opsOf later) := by
    simp [all, hops, withoutCallsIn, Operation.isCallIn, Operation.callIn?]
  rw [hworld, hkept, World.replay_cons]
  exact ⟨(apart_stage h).replay hadopt,
    (apart_stage h).agreeOutside_replay (.refl _ _) hadopt⟩

/-- Worlds that agree outside a round apart have the same declarations. -/
theorem declarations_eq {round : RoundId} {w w' : World} (h : World.Apart round w)
    (hagree : World.AgreeOutside round w w') : w.declarations = w'.declarations := by
  rw [World.declarations, World.declarations, hagree.current, hagree.rounds _ h.not_current]

/-- A configuration whose rules run no command does nothing but call setters of its own round. -/
theorem withoutCallsIn_innerOps {rules : List Rule} (h : ∀ rule ∈ rules, rule.nests = false)
    (s : Session) : withoutCallsIn s.ownRound (innerOps rules s) = [] := by
  have hcalls : ∀ op ∈ innerOps rules s, op.isCallIn s.ownRound = true := by
    refine forall_mem_visitOps (fun subject visit trace next => ?_) _ _ _
    exact Rule.allOps_calls rules (Rule.anyNests_eq_false.mpr h) _ trace next
  exact List.filter_eq_nil_iff.mpr fun op hop => by simp [hcalls op hop]

/-- The declarations of a configuration are the calls of its own setters. -/
theorem round_innerOps {s : Session} (h : s.world.Begun) (rules : List Rule) :
    (ownVisits rules s).2.2.world.compiler.round s.ownRound =
      Round.ofDeclarations (callsIn s.ownRound (innerOps rules s)) := by
  have hempty : (s.world.apply .stage).compiler.round s.ownRound = {} :=
    Policy.Compiler.round_stage_new _
  rw [(runs_innerOps rules s).eq_replay,
    (apart_stage h).round_replay (adopt_notMem_innerOps rules s), hempty]
  rfl

/-- A configuration that ends well declares the calls of its own setters and publishes their
compilation. -/
theorem configure_ok {s : Session} (h : s.world.Begun) {rules : List Rule}
    (hok : (Command.run (.configure rules) s).1.isOk = true) :
    let next := (Command.run (.configure rules) s).2.2.world
    let own := Round.ofDeclarations (callsIn s.ownRound (Command.ops (.configure rules) s))
    next.declarations = own ∧ next.compiler.published = .compile next.graph own := by
  rcases configure_cases rules s with ⟨error, hrun, -⟩ | ⟨reply, -, hops, hworld⟩
  · rw [hrun] at hok
    contradiction
  · have hcalls : callsIn s.ownRound (Command.ops (.configure rules) s) =
        callsIn s.ownRound (innerOps rules s) := by
      rw [hops, callsIn, List.filterMap_append, List.filterMap_cons]
      exact List.append_nil _
    rw [hcalls, hworld, ← round_innerOps h]
    exact ⟨rfl, rfl⟩

/-- A configuration that fails reports why its callback failed for some subject. -/
theorem configure_error {s : Session} {rules : List Rule} {error : Error}
    (herror : (Command.run (.configure rules) s).1 = .error error) :
    (∃ subject ∈ s.engine.graph.names, ∃ cause,
      FailsFor (ownCallback rules s) subject cause s.engine.graph.names {}
        (s.withCompiler s.engine.compiler.stage.1) ∧
      ReportedAs ((Command.run (.configure rules) s).2.2.engine.graph.labelOf subject) cause error) ∧
    Command.ops (.configure rules) s = .stage :: innerOps rules s := by
  rcases configure_cases rules s with ⟨other, hrun, ⟨subject, cause, hfails, rfl⟩, hops, -⟩ |
    ⟨reply, hrun, -⟩
  · obtain rfl := Except.error.inj (hrun.symm.trans herror)
    exact ⟨⟨subject, hfails.mem, cause, hfails, reportedAs_callbackError _ _⟩, hops⟩
  · simp [hrun] at herror

/-- A configuration that fails and whose rules run no command changes neither the declarations nor the
published snapshot. -/
theorem configure_error_unnested {s : Session} (h : s.world.Begun) {rules : List Rule}
    (hrules : ∀ rule ∈ rules, rule.nests = false)
    (hops : Command.ops (.configure rules) s = .stage :: innerOps rules s) :
    let next := (Command.run (.configure rules) s).2.2.world
    next.declarations = s.world.declarations ∧
      next.compiler.published = s.world.compiler.published := by
  intro next
  obtain ⟨hapart, hagree⟩ := agreeOutside_failed h rules hops []
  have hkept : withoutCallsIn s.ownRound (Command.ops (.configure rules) s ++
      (Command.run (.configure rules) s).2.2.opsOf []) = [.stage] := by
    rw [opsOf, List.append_nil, hops]
    exact congrArg (List.cons .stage) (withoutCallsIn_innerOps hrules s)
  rw [hkept] at hagree
  refine ⟨?_, hagree.published.symm⟩
  exact (declarations_eq hapart hagree).trans (Policy.Compiler.round_stage _ _)

/-- Sessions that are alike configure alike: both fail for the same reason, or both end with the same
declarations and publish the same snapshot. -/
theorem configure_alike {s t : Session} (h : s.world.Begun) (ht : Alike s t) (rules : List Rule) :
    let ran := Command.run (.configure rules) s
    let other := Command.run (.configure rules) t
    (∀ error, ran.1 = .error error ↔ other.1 = .error error) ∧
      (ran.1.isOk = true →
        other.2.2.world.declarations = ran.2.2.world.declarations ∧
          other.2.2.world.compiler.published = ran.2.2.world.compiler.published) := by
  intro ran other
  obtain ⟨hops, hvisits⟩ := Command.alike (.configure rules) ht
  have hended : ended other.1 = ended ran.1 := hvisits.ended
  have hnext : Alike ran.2.2 other.2.2 := hvisits.session
  refine ⟨fun error => ?_, fun hran => ?_⟩
  · calc ran.1 = .error error ↔ ended ran.1 = .error error := ended_eq_error.symm
      _ ↔ ended other.1 = .error error := by rw [hended]
      _ ↔ other.1 = .error error := ended_eq_error
  have hbegun : t.world.Begun := by
    change t.engine.compiler.current < t.engine.compiler.rounds.length
    rw [ht.current, ht.count]
    exact h
  have hround : t.ownRound = s.ownRound := ht.count
  have hother : other.1.isOk = true := by
    rw [← isOk_ended, hended, isOk_ended, hran]
  obtain ⟨hdeclarations, hpublished⟩ := configure_ok h hran
  obtain ⟨hdeclarations', hpublished'⟩ := configure_ok hbegun hother
  rw [hops, hround] at hdeclarations' hpublished'
  refine ⟨hdeclarations'.trans hdeclarations.symm, ?_⟩
  rw [hpublished', hpublished]
  exact congrArg (Snapshot.compile · _) hnext.graph

/-- An organization whose admin reads it. -/
def officeCommands : List Command :=
  [.step (.register { kind := .context, name := .text "org", roles := .ofTexts ["admin"] }),
    .step (.declare { context := .own "org", role := .text "admin", subject := .own "org",
                      actions := .mapping [(.text "read", .bool true)] }),
    .step .build]

/-- A rule that lets the admin write instead. -/
def writeRule : Rule :=
  .mk none (.set (.text "org") (.text "admin") .item none
    (.ok (some (.mapping [(.text "write", .bool true)]), .mapping [])))

/-- A rule that fails. -/
def failRule : Rule := .mk none (.fail (.thrown "RuntimeError" (.text "boom")))

/-- What the rule declares. -/
def writeDeclaration : Policy.Declaration where
  context := .plain "org"
  role := .plain "admin"
  subject := .plain "org"
  actions := [(.plain "write", true)]

/-- A rule that tries to write and to fail, and deals with the failure by nothing. -/
def triedRule : Rule := .mk none (.attempt (fun _ => true) [writeRule, failRule] [])

end AccessMatrix.Session
