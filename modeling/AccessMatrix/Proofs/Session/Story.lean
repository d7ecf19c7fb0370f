import AccessMatrix.Proofs.Session.Configuration
import AccessMatrix.Proofs.Session.Ledger

/-!
# The story of a run

The story of a run lists what happens in it, of nested commands and of callbacks included, each
event with the world that it leads to. Rounds have no names in it. Every command has a story that is
read off its run: a step is one moment, and a callback begins, does what its rules do for one
subject after the other, and ends.
-/

namespace AccessMatrix.Session

open Outcome
open Policy (Declaration RoundId Setter)

/-- An event with the world that it leads to. -/
structure Moment where
  event : Event
  world : World

/-- The ledger after a story. -/
def Ledger.after (l : Ledger) (story : List Moment) : Ledger :=
  story.foldl (fun l m => l.step m.event) l

theorem Ledger.after_append (l : Ledger) (story later : List Moment) :
    l.after (story ++ later) = (l.after story).after later := List.foldl_append

/-- The world that a story leads to. -/
def World.afterStory (w : World) (story : List Moment) : World := story.foldl (fun _ m => m.world) w

theorem World.afterStory_append (w : World) (story later : List Moment) :
    w.afterStory (story ++ later) = (w.afterStory story).afterStory later := List.foldl_append

/-- What happens in a step. -/
def Step.event (step : Step) (s : Session) : Event :=
  match step, step.ops s with
  | _, [.declare d] => .declare d
  | .callKept label _, [.call _ d] => .setKept label d
  | _, [.clear] => .clear
  | _, [.build] => .build
  | _, _ => .other

/-- The round that a setter declares in, if it declares. -/
def roundOf? : Setter → Option RoundId
  | .policy round _ _ _ => some round
  | .member _ _ _ | .value _ _ => none

/-- The setter that a callback reaches. -/
def Call.setter (call : Call) (s : Session) (context role : Value) (form : Policy.Form) :
    Except Misuse Setter :=
  (call.find s context).bind fun reach => reach.find form role

/-- What happens when a callback reaches a setter. -/
def Call.event (call : Call) (s : Session) (context role : Value) (form : Policy.Form)
    (keep? : Option Value) (given : Given) : Event :=
  match keep?, call.set s context role form keep? given with
  | some label, .ok _ =>
    .keep label ((call.setter s context role form).toOption.any fun setter =>
      (roundOf? setter).isSome)
  | none, .ok _ =>
    match call.setOps s context role form keep? given with
    | [.call _ d] => .set d
    | _ => .other
  | _, .error _ => .other

/-- What happens in a callback for one subject after the other, until it fails. -/
def visitStory (callback : String → Nat → Trace → Session → Visit)
    (story : String → Nat → Trace → Session → List Moment) :
    List String → Trace → Session → List Moment
  | [], _, _ => []
  | subject :: rest, trace, s =>
    let trace := { trace with visited := trace.visited ++ [subject] }
    let visited := { s with visits := s.visits + 1 }
    story subject s.visits trace visited ++
      match callback subject s.visits trace visited with
      | (.ok (), trace, s) => visitStory callback story rest trace s
      | (.error _, _, _) => []

mutual

/-- What happens in a command. -/
def Command.story : Command → Session → List Moment
  | .step step, s => [⟨step.event s, (step.run s).2.world⟩]
  | .configure rules, s =>
    let (c, round) := s.engine.compiler.stage
    let contexts := s.engine.graph.contexts.map Entity.name
    let inner := visitStory
      (fun subject visit => Rule.followAll rules ⟨round, contexts, subject, visit⟩)
      (fun subject visit => Rule.allStory rules ⟨round, contexts, subject, visit⟩)
      s.engine.graph.names {} (s.withCompiler c)
    let ran := Command.run (.configure rules) s
    ⟨.begin true, (s.withCompiler c).world⟩ :: inner ++ [⟨.finish ran.1.isOk, ran.2.2.world⟩]
  | .forEachSubject rules, s =>
    let round := s.engine.compiler.current
    let contexts := s.engine.graph.contexts.map Entity.name
    let inner := visitStory
      (fun subject visit => Rule.followAll rules ⟨round, contexts, subject, visit⟩)
      (fun subject visit => Rule.allStory rules ⟨round, contexts, subject, visit⟩)
      s.engine.graph.names {} s
    let ran := Command.run (.forEachSubject rules) s
    ⟨.begin false, s.world⟩ :: inner ++ [⟨.finish ran.1.isOk, ran.2.2.world⟩]

/-- What happens by the rules of a callback, up to the first that fails. -/
def Rule.allStory : List Rule → Call → Trace → Session → List Moment
  | [], _, _, _ => []
  | rule :: rest, call, trace, s =>
    Rule.story rule call trace s ++
      match Rule.follow rule call trace s with
      | (.ok (), trace, s) => Rule.allStory rest call trace s
      | (.error _, _, _) => []

/-- What happens by a rule. -/
def Rule.story : Rule → Call → Trace → Session → List Moment
  | .mk subject? task, call, trace, s =>
    if subject?.all (·.asText? = some call.subject) then Task.story task call trace s else []

/-- What happens by a task. -/
def Task.story : Task → Call → Trace → Session → List Moment
  | .set context role form keep? given, call, trace, s =>
    [⟨call.event s context role form keep? given,
      (Task.perform (.set context role form keep? given) call trace s).2.2.world⟩]
  | .fail _, _, _, _ => []
  | .probe, _, _, _ => []
  | .run command, _, _, s => Command.story command s
  | .attempt caught body handler, call, trace, s =>
    Rule.allStory body call trace s ++
      match Rule.followAll body call trace s with
      | (.ok (), _, _) => []
      | (.error e, trace, s) => if caught e then Rule.allStory handler call trace s else []

end

/-- What happens in some commands one after the other. -/
def storyOf (s : Session) : List Command → List Moment
  | [] => []
  | command :: rest => command.story s ++ storyOf (command.run s).2.2 rest

/-- Looking up references puts no setter aside. -/
theorem kept_mentionAll (s : Session) (refs : List Ref) : (s.mentionAll refs).2.kept = s.kept := by
  induction refs generalizing s with
  | nil => rfl
  | cons ref rest ih =>
    rw [mentionAll]
    split
    · rfl
    · rename_i next hnext
      rw [ih]
      cases ref with
      | own name =>
        rw [mention] at hnext
        split at hnext
        · exact congrArg kept (Except.ok.inj hnext).symm
        · contradiction
      | foreign name =>
        rw [mention] at hnext
        split at hnext
        · exact congrArg kept (Except.ok.inj hnext).symm
        · obtain ⟨⟨g, e⟩, -, rfl⟩ := map_eq_ok.mp hnext
          rfl
      | value v => exact congrArg kept (Except.ok.inj hnext).symm

/-- Calling a setter puts none aside. -/
theorem kept_callSetter {s next : Session} {setter : Setter} {given : Given}
    (h : (do let (value?, named) ← given
             s.callSetter setter value? named) = .ok next) : next.kept = s.kept := by
  obtain ⟨⟨value?, named⟩, -, h⟩ := bind_eq_ok.mp h
  obtain ⟨outcome, -, rfl⟩ := map_eq_ok.mp h
  rfl

/-- No step puts a setter aside. -/
theorem Step.kept_perform (step : Step) (s : Session) : (step.perform s).2.kept = s.kept := by
  cases step with
  | register r =>
    refine of_whole (motive := fun t => t.kept = s.kept) rfl fun h => ?_
    obtain ⟨⟨e, registered⟩, hregister, h⟩ := map_eq_ok.mp h
    obtain ⟨⟨g, e⟩, -, hregister⟩ := map_eq_ok.mp hregister
    cases hregister
    cases h
    rfl
  | callKept label given =>
    refine of_whole (motive := fun t => t.kept = s.kept) rfl fun h => ?_
    obtain ⟨called, hcalled, h⟩ := map_eq_ok.mp h
    obtain ⟨setter, -, hcalled⟩ := bind_eq_ok.mp hcalled
    cases h
    exact kept_callSetter hcalled
  | assignParents _ _ | role _ _ | paths _ | relationships _ =>
    refine of_whole (motive := fun t => t.kept = s.kept) rfl fun h => ?_
    obtain ⟨e, -, h⟩ := bind_eq_ok.mp h
    obtain ⟨found, -, h⟩ := bind_eq_ok.mp h
    cases h
    rfl
  | allowanceFor _ _ | cell _ _ _ _ =>
    refine of_whole (motive := fun t => t.kept = s.kept) rfl fun h => ?_
    obtain ⟨e, -, h⟩ := bind_eq_ok.mp h
    cases h
    rfl
  | declare _ | registerAgain _ | entity _ | require _ | contains _ | compareRoles _ _ | hold _
    | compiled _ | declared _ _ _ _ | hierarchy =>
    refine of_whole (motive := fun t => t.kept = s.kept) rfl fun h => ?_
    obtain ⟨answer, -, h⟩ := map_eq_ok.mp h
    cases h
    rfl
  | build | clear | graph | adaptMemberships _ | adaptSubjects _ | isAllowed _ _ _ | explain _ _ _
    | actorPolicies _ _ | resolve _ _ | refused _ _ => rfl

/-- No step puts a setter aside, whatever it mentions. -/
theorem Step.kept_run (step : Step) (s : Session) : (step.run s).2.kept = s.kept := by
  have hmention := kept_mentionAll s step.mentions
  rw [Step.run]
  generalize s.mentionAll step.mentions = mentioned at hmention ⊢
  obtain ⟨_ | ⟨⟩, next⟩ := mentioned
  · exact hmention
  · exact (step.kept_perform next).trans hmention

/-- What is found under a label is stored there. -/
theorem lookup_of_aside {α : Type} {entries : List (Value × α)} {label : Value} {found : α}
    (h : aside entries label = .ok found) : Value.lookup entries label = some found := by
  obtain ⟨_, -, h⟩ := bind_eq_ok.mp h
  split at h
  · rename_i stored hstored
    rw [hstored, pure_eq_ok.mp h]
  · simp at h

/-- A setter's call declares nothing, or declares in the round of the setter. -/
theorem setterOps_cases (setter : Setter) (given : Given) :
    setterOps setter given = [] ∨
      ∃ id d, roundOf? setter = some id ∧ setterOps setter given = [.call id d] := by
  cases setter with
  | policy round context role subject =>
    cases given with
    | error e => exact .inl rfl
    | ok arguments =>
      simp only [setterOps]
      split
      · rename_i d hd
        exact .inr ⟨round, d, rfl, rfl⟩
      · exact .inl rfl
  | member id made m => exact .inl rfl
  | value kind title => exact .inl rfl

/-- A step does nothing if what it mentions is not found. -/
theorem Step.ops_eq (step : Step) (s : Session) :
    step.ops s = [] ∨ step.ops s = step.performOps (s.mentionAll step.mentions).2 := by
  rw [Step.ops]
  split
  · exact .inl rfl
  · rename_i hmention
    rw [hmention]
    exact .inr rfl

/-- What happens in a step, with the operation that it is. -/
theorem Step.event_cases (step : Step) (s : Session) :
    (step.event s = .other ∧ (step.run s).2.world.compiler = s.world.compiler) ∨
    (∃ d, step.event s = .declare d ∧ (step.run s).2.world = s.world.apply (.declare d)) ∨
    (∃ label id d, step.event s = .setKept label d ∧
      (Value.lookup s.kept label).bind roundOf? = some id ∧
      (step.run s).2.world = s.world.apply (.call id d)) ∨
    (step.event s = .clear ∧ (step.run s).2.world = s.world.apply .clear) ∨
    (step.event s = .build ∧ (step.run s).2.world = s.world.apply .build) := by
  have hnone (h : step.ops s = []) :
      step.event s = .other ∧ (step.run s).2.world.compiler = s.world.compiler := by
    rw [Step.world_run]
    unfold Step.event
    rw [h]
    cases step <;> exact ⟨rfl, rfl⟩
  rcases Step.ops_eq step s with hops | hops
  · exact .inl (hnone hops)
  unfold Step.performOps at hops
  rw [Step.world_run]
  unfold Step.event
  cases step with
  | register r =>
    left
    rw [hops]
    refine ⟨rfl, ?_⟩
    change (s.world.apply (.register r)).compiler = s.world.compiler
    rw [World.apply]
    split <;> rfl
  | assignParents name parents =>
    left
    dsimp only at hops
    split at hops <;> rw [hops] <;> exact ⟨rfl, rfl⟩
  | declare r =>
    dsimp only at hops
    split at hops <;> rw [hops]
    · exact .inr (.inl ⟨_, rfl, rfl⟩)
    · exact .inl ⟨rfl, rfl⟩
  | callKept label given =>
    dsimp only at hops
    split at hops
    · rename_i setter hsetter
      rcases setterOps_cases setter given with hsilent | ⟨id, d, hround, hcall⟩
      · rw [hops, hsilent]
        exact .inl ⟨rfl, rfl⟩
      · rw [hops, hcall]
        refine .inr (.inr (.inl ⟨label, id, d, rfl, ?_, rfl⟩))
        have hlookup : Value.lookup s.kept label = some setter := lookup_of_aside hsetter
        rw [hlookup]
        exact hround
    · rw [hops]
      exact .inl ⟨rfl, rfl⟩
  | clear =>
    rw [hops]
    exact .inr (.inr (.inr (.inl ⟨rfl, rfl⟩)))
  | build =>
    rw [hops]
    exact .inr (.inr (.inr (.inr ⟨rfl, rfl⟩)))
  | _ =>
    left
    rw [hops]
    exact ⟨rfl, rfl⟩

/-- What a callback does that reaches a setter: the setter is found, and is put aside or called. -/
theorem Call.set_ok {call : Call} {s next : Session} {context role : Value} {form : Policy.Form}
    {keep? : Option Value} {given : Given}
    (h : call.set s context role form keep? given = .ok next) :
    ∃ setter, call.setter s context role form = .ok setter ∧
      match keep? with
      | some label => next = { s with kept := Value.putEntry s.kept label setter }
      | none => (do let (value?, named) ← given
                    s.callSetter setter value? named) = .ok next := by
  obtain ⟨reach, hreach, h⟩ := bind_eq_ok.mp h
  obtain ⟨setter, hsetter, h⟩ := bind_eq_ok.mp h
  have hfound : call.find s context = .ok reach := mapError_eq_ok.mp hreach
  have hrole : reach.find form role = .ok setter := mapError_eq_ok.mp hsetter
  refine ⟨setter, bind_eq_ok.mpr ⟨reach, hfound, hrole⟩, ?_⟩
  cases keep? with
  | some label =>
    obtain ⟨kept, hkept, h⟩ := bind_eq_ok.mp h
    obtain ⟨_, -, hkept⟩ := bind_eq_ok.mp hkept
    cases hkept
    cases h
    rfl
  | none => exact h

/-- A callback reaches setters of its own round only. -/
theorem Call.round_setter {call : Call} {s : Session} {context role : Value} {form : Policy.Form}
    {setter : Setter} (h : call.setter s context role form = .ok setter) {id : RoundId}
    (hid : roundOf? setter = some id) : id = call.round := by
  obtain ⟨reach, hreach, hfind⟩ := bind_eq_ok.mp h
  cases setter with
  | policy round label name subject =>
    obtain rfl := Option.some.inj hid
    exact (reach_find_round hfind).trans (Call.find_round hreach)
  | member id made m => contradiction
  | value kind title => contradiction

/-- A callback that calls a setter does what the call does. -/
theorem Call.setOps_of_setter {call : Call} {s : Session} {context role : Value}
    {form : Policy.Form} {setter : Setter} (h : call.setter s context role form = .ok setter)
    (given : Given) :
    call.setOps s context role form none given = setterOps setter given := by
  unfold Call.setter at h
  rw [Call.setOps, h]

/-- What happens when a callback reaches a setter. -/
theorem Call.event_cases {call : Call} {s next : Session} {context role : Value}
    {form : Policy.Form} {keep? : Option Value} {given : Given}
    (h : call.set s context role form keep? given = .ok next) :
    let event := call.event s context role form keep? given
    (event = .other ∧ next.world = s.world ∧ next.kept = s.kept) ∨
    (∃ d, event = .set d ∧ next.world = s.world.apply (.call call.round d) ∧ next.kept = s.kept) ∨
    (∃ label setter declares, event = .keep label declares ∧
      roundOf? setter = (if declares then some call.round else none) ∧
      next.world = s.world ∧ next.kept = Value.putEntry s.kept label setter) := by
  intro event
  obtain ⟨setter, hsetter, hnext⟩ := Call.set_ok h
  have hworld := (call.runs_setOps s context role form keep? given).eq_replay
  have hevent : event = call.event s context role form keep? given := rfl
  unfold Call.event at hevent
  rw [h] at hworld hevent
  cases keep? with
  | some label =>
    dsimp only at hnext hevent
    subst hnext
    refine .inr (.inr ⟨label, setter, _, hevent, ?_, rfl, rfl⟩)
    rw [hsetter]
    cases hround : roundOf? setter with
    | none => simp [Except.toOption, hround]
    | some id =>
      obtain rfl := Call.round_setter hsetter hround
      simp [Except.toOption, hround]
  | none =>
    have hops : call.setOps s context role form none given = setterOps setter given :=
      Call.setOps_of_setter hsetter given
    have hkept : next.kept = s.kept := kept_callSetter hnext
    change next.world = _ at hworld
    dsimp only at hevent
    rw [hops] at hworld hevent
    rcases setterOps_cases setter given with hsilent | ⟨id, d, hround, hcall⟩
    · rw [hsilent] at hworld hevent
      exact .inl ⟨hevent, hworld, hkept⟩
    · obtain rfl := Call.round_setter hsetter hround
      rw [hcall] at hworld hevent
      exact .inr (.inl ⟨d, hevent, hworld, hkept⟩)

end AccessMatrix.Session
