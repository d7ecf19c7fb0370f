import AccessMatrix.Proofs.Session.Story

/-!
# Ledgers and compilers

The ledger of a story agrees with the run at every moment: it tells which rounds the compiler has
begun, which of them is current, what each of them holds, and which round every kept setter declares
in. This is shown once for every way that a run goes on, and by recursion on commands for whole
runs.
-/

namespace AccessMatrix

namespace Session

open Outcome
open Policy (Compiler Declaration Round RoundId Setter Snapshot)

namespace Ledger

variable {l : Ledger}

/-- A ledger tells what a compiler keeps of its rounds. -/
structure Tells (l : Ledger) (c : Compiler) : Prop where
  count : c.rounds.length = l.rounds.length
  current : c.current = l.current
  rounds : ∀ id, c.round id = Round.ofDeclarations (l.recorded id)

namespace Tells

variable {c : Compiler}

/-- What the next build compiles is told by the ledger. -/
theorem declarations (h : l.Tells c) :
    c.round c.current = Round.ofDeclarations l.declared := by
  rw [h.rounds, h.current, declared]

theorem record (h : l.Tells c) {id : RoundId} (hid : id < l.rounds.length) (d : Declaration) :
    (l.record d (some id)).Tells (c.record id d).1 := by
  constructor
  · rw [length_record, ← h.count]
    simp [Compiler.record]
  · exact h.current
  · intro other
    rw [Compiler.round_record c id other d (h.count ▸ hid), recorded_record hid]
    split
    · rw [h.rounds, Round.ofDeclarations_concat]
    · exact h.rounds other

/-- A round is begun, whether it is made current or not. -/
theorem begin (h : l.Tells c) (running : List Running) :
    Tells { l with rounds := l.rounds ++ [[]], running } c.stage.1 := by
  constructor
  · simpa [Compiler.stage] using h.count
  · exact h.current
  · intro id
    rw [Compiler.round_stage, h.rounds]
    exact congrArg Round.ofDeclarations (recorded_begin l l.current running id).symm

theorem clear (h : l.Tells c) : (l.step .clear).Tells c.clear := by
  constructor
  · exact (h.begin l.running).count
  · exact h.count
  · intro id
    rw [Ledger.step, recorded_begin]
    exact (Compiler.round_stage c id).trans (h.rounds id)

end Tells

end Ledger

/-- A ledger explains a moment that follows on a world: it knows what the event is about, and tells
which declarations the next build compiles and what is published. -/
structure Ledger.Explains (l : Ledger) (w : World) (m : Moment) : Prop where
  knows : l.Knows m.event
  declarations : m.world.declarations = Round.ofDeclarations (l.step m.event).declared
  published : m.world.compiler.published =
    if l.publishes m.event then
      .compile m.world.graph (Round.ofDeclarations (l.step m.event).declared)
    else w.compiler.published

/-- A ledger that is kept along a story explains every moment of it. -/
def Ledger.ExplainsAll : Ledger → World → List Moment → Prop
  | _, _, [] => True
  | l, w, m :: rest => l.Explains w m ∧ (l.step m.event).ExplainsAll m.world rest

theorem Ledger.explainsAll_append {l : Ledger} {w : World} {story later : List Moment} :
    l.ExplainsAll w (story ++ later) ↔
      l.ExplainsAll w story ∧ (l.after story).ExplainsAll (w.afterStory story) later := by
  induction story generalizing l w with
  | nil => exact (and_iff_right trivial).symm
  | cons m rest ih =>
    rw [List.cons_append, ExplainsAll, ExplainsAll, ih, and_assoc]
    rfl

/-- A ledger tells the rounds of the compiler of a session and those of its kept setters. -/
structure Ledger.Agrees (l : Ledger) (s : Session) : Prop where
  begun : l.Begun
  tells : l.Tells s.engine.compiler
  kept : l.kept = s.kept.map fun entry => (entry.1, roundOf? entry.2)

/-- A story that begins in a session and ends in another one is told truly, and the callbacks at
work are the same after it as before. -/
structure Accounts (l : Ledger) (w : World) (story : List Moment) (t : Session) : Prop where
  explains : l.ExplainsAll w story
  world : w.afterStory story = t.world
  agrees : (l.after story).Agrees t
  running : (l.after story).running = l.running

/-- A ledger that agrees goes on to do so if nothing that it tells of is changed. -/
theorem Ledger.Agrees.congr {l : Ledger} {s t : Session} (h : l.Agrees s)
    (hcompiler : t.world.compiler = s.world.compiler) (hkept : t.kept = s.kept) : l.Agrees t where
  begun := h.begun
  tells := by
    change t.engine.compiler = s.engine.compiler at hcompiler
    exact hcompiler ▸ h.tells
  kept := hkept ▸ h.kept

/-- The rounds that a ledger tells of are those of its compiler, so a ledger that agrees after an
event explains it. -/
theorem Ledger.Agrees.explains {l : Ledger} {w : World} {event : Event} {t : Session}
    (h : (l.step event).Agrees t) (hknows : l.Knows event)
    (hpublished : t.world.compiler.published =
      if l.publishes event then .compile t.world.graph t.world.declarations
      else w.compiler.published) :
    l.Explains w ⟨event, t.world⟩ := by
  have hdeclarations : t.world.declarations = Round.ofDeclarations (l.step event).declared :=
    h.tells.declarations
  refine ⟨hknows, hdeclarations, ?_⟩
  rw [hpublished, hdeclarations]

namespace Accounts

variable {l : Ledger} {w : World} {t : Session}

theorem nil (h : l.Agrees t) : Accounts l t.world [] t := ⟨trivial, rfl, h, rfl⟩

theorem append {story later : List Moment} {u : Session} (h : Accounts l w story t)
    (h' : Accounts (l.after story) t.world later u) : Accounts l w (story ++ later) u where
  explains := by
    rw [Ledger.explainsAll_append, h.world]
    exact ⟨h.explains, h'.explains⟩
  world := by rw [World.afterStory_append, h.world, h'.world]
  agrees := by
    rw [Ledger.after_append]
    exact h'.agrees
  running := by rw [Ledger.after_append, h'.running, h.running]

/-- A moment that neither begins a callback nor ends one makes a story. -/
theorem single {event : Event} (hagrees : (l.step event).Agrees t) (hknows : l.Knows event)
    (hrunning : (l.step event).running = l.running)
    (hpublished : t.world.compiler.published =
      if l.publishes event then .compile t.world.graph t.world.declarations
      else w.compiler.published) :
    Accounts l w [⟨event, t.world⟩] t :=
  ⟨⟨hagrees.explains hknows hpublished, trivial⟩, rfl, hagrees, hrunning⟩

end Accounts

/-- A declaration that is recorded in the same round of a ledger and of a compiler keeps them in
agreement. -/
theorem Ledger.Agrees.record {l : Ledger} {s t : Session} (h : l.Agrees s) {id : RoundId}
    (hid : id < l.rounds.length) {d : Declaration} (hworld : t.world = s.world.apply (.call id d))
    (hkept : t.kept = s.kept) : (l.record d (some id)).Agrees t where
  begun := h.begun.record d (some id)
  tells := by
    have hcompiler : t.engine.compiler = (s.engine.compiler.record id d).1 :=
      congrArg World.compiler hworld
    rw [hcompiler]
    exact h.tells.record hid d
  kept := by
    rw [hkept]
    exact h.kept

/-- The round of a kept setter stands in the ledger. -/
theorem Ledger.Agrees.keptRound? {l : Ledger} {s : Session} (h : l.Agrees s) (label : Value) :
    l.keptRound? label = (Value.lookup s.kept label).bind roundOf? := by
  rw [Ledger.keptRound?, h.kept, Value.lookup_map]
  cases Value.lookup s.kept label <;> rfl

/-- Every step is told truly. -/
theorem Step.accounts {l : Ledger} {s : Session} (h : l.Agrees s) (step : Step) :
    Accounts l s.world [⟨step.event s, (step.run s).2.world⟩] (step.run s).2 := by
  have hkept := Step.kept_run step s
  rcases Step.event_cases step s with ⟨hevent, hcompiler⟩ | ⟨d, hevent, hworld⟩ |
    ⟨label, id, d, hevent, hround, hworld⟩ | ⟨hevent, hworld⟩ | ⟨hevent, hworld⟩
  · rw [hevent]
    exact .single (h.congr hcompiler hkept) trivial rfl (congrArg Compiler.published hcompiler)
  · rw [hevent]
    have hrecord : (step.run s).2.world = s.world.apply (.call l.current d) := by
      rw [hworld, ← h.tells.current]
      rfl
    refine .single (h.record h.begun.current hrecord hkept) trivial rfl ?_
    rw [hrecord]
    rfl
  · rw [hevent]
    rw [← h.keptRound?] at hround
    have hstep : l.step (.setKept label d) = l.record d (some id) := by
      rw [Ledger.step, hround]
    refine .single ?_ (Option.isSome_of_eq_some hround) ?_ ?_
    · rw [hstep]
      exact h.record (h.begun.keptRound hround) hworld hkept
    · rw [hstep, Ledger.running_record]
    · rw [hworld]
      rfl
  · rw [hevent]
    have hcompiler : (step.run s).2.engine.compiler = s.engine.compiler.clear :=
      congrArg World.compiler hworld
    refine .single ⟨h.begun.step .clear, ?_, ?_⟩ trivial rfl ?_
    · rw [hcompiler]
      exact h.tells.clear
    · rw [hkept]
      exact h.kept
    · rw [hworld]
      rfl
  · rw [hevent]
    have hcompiler : (step.run s).2.engine.compiler = s.engine.compiler.build s.engine.graph :=
      congrArg World.compiler hworld
    refine .single ⟨h.begun, ?_, ?_⟩ trivial rfl ?_
    · rw [hcompiler]
      exact ⟨h.tells.count, h.tells.current, h.tells.rounds⟩
    · rw [hkept]
      exact h.kept
    · rw [hworld]
      rfl

/-- The end of a callback keeps the ledger in agreement, if the compiler makes its round the current
one just when the ledger does. -/
theorem Ledger.Agrees.finish {l : Ledger} {s t : Session} (h : l.Agrees s) {callback : Running}
    {rest : List Running} (hrunning : l.running = callback :: rest) {ended : Bool}
    (hrounds : t.engine.compiler.rounds = s.engine.compiler.rounds)
    (hcurrent : t.engine.compiler.current =
      if callback.configures && ended then callback.round else s.engine.compiler.current)
    (hkept : t.kept = s.kept) : (l.step (.finish ended)).Agrees t := by
  refine ⟨h.begun.step _, ?_, ?_⟩
  · rw [Ledger.step_finish hrunning]
    constructor
    · rw [hrounds]
      exact h.tells.count
    · rw [hcurrent, h.tells.current]
    · intro id
      have hround : t.engine.compiler.round id = s.engine.compiler.round id := by
        rw [Compiler.round, hrounds, Compiler.round]
      exact hround.trans (h.tells.rounds id)
  · rw [Ledger.step_finish hrunning, hkept]
    exact h.kept

/-- A callback is told truly from its beginning to its end, if what happens in between is. -/
theorem Accounts.callback {l : Ledger} {w : World} {start last t : Session} {inner : List Moment}
    {configures ended : Bool} {round : RoundId}
    (hrunning : (l.step (.begin configures)).running = ⟨configures, round⟩ :: l.running)
    (hstart : (l.step (.begin configures)).Agrees start)
    (hsilent : start.world.compiler.published = w.compiler.published)
    (hinner : Accounts (l.step (.begin configures)) start.world inner last)
    (hrounds : t.engine.compiler.rounds = last.engine.compiler.rounds)
    (hcurrent : t.engine.compiler.current =
      if configures && ended then round else last.engine.compiler.current)
    (hpublished : t.world.compiler.published =
      if configures && ended then .compile t.world.graph t.world.declarations
      else last.world.compiler.published)
    (hkept : t.kept = last.kept) :
    Accounts l w (⟨.begin configures, start.world⟩ :: inner ++ [⟨.finish ended, t.world⟩]) t := by
  have hstack : ((l.step (.begin configures)).after inner).running =
      ⟨configures, round⟩ :: l.running := hinner.running.trans hrunning
  have hend := hinner.agrees.finish hstack hrounds hcurrent hkept
  have hfinish : ((l.step (.begin configures)).after inner).publishes (.finish ended) =
      (configures && ended) := by
    simp [Ledger.publishes, hstack, Bool.and_comm]
  refine ⟨⟨hstart.explains trivial hsilent, ?_⟩, ?_, ?_, ?_⟩
  · change (l.step (.begin configures)).ExplainsAll start.world (inner ++ _)
    rw [Ledger.explainsAll_append]
    refine ⟨hinner.explains, hend.explains ?_ ?_, trivial⟩
    · change ((l.step (.begin configures)).after inner).running ≠ []
      rw [hstack]
      exact List.cons_ne_nil _ _
    · rw [hfinish, hpublished, hinner.world]
  · rw [World.afterStory_append]
    rfl
  · rw [Ledger.after_append]
    exact hend
  · rw [Ledger.after_append]
    change (((l.step (.begin configures)).after inner).step (.finish ended)).running = l.running
    rw [Ledger.step_finish hstack]

/-- A callback is told truly from subject to subject. -/
theorem accounts_visitStory {callback : String → Nat → Trace → Session → Visit}
    {story : String → Nat → Trace → Session → List Moment} {round : RoundId}
    (h : ∀ {l : Ledger} {s : Session}, l.Agrees s → l.innermost? = some round →
      ∀ subject visit trace, Accounts l s.world (story subject visit trace s)
        (callback subject visit trace s).2.2)
    {l : Ledger} {s : Session} (hagrees : l.Agrees s) (hround : l.innermost? = some round)
    (subjects : List String) (trace : Trace) :
    Accounts l s.world (visitStory callback story subjects trace s)
      (visitAll callback subjects trace s).2.2 := by
  induction subjects generalizing l trace s with
  | nil => exact .nil hagrees
  | cons subject rest ih =>
    rw [visitStory, visitAll]
    have hvisit := h (s := { s with visits := s.visits + 1 }) (hagrees.congr rfl rfl) hround subject
      s.visits { trace with visited := trace.visited ++ [subject] }
    generalize callback subject s.visits _ _ = visit at hvisit ⊢
    obtain ⟨_ | ⟨⟩, trace, next⟩ := visit
    · rw [List.append_nil]
      exact hvisit
    · refine hvisit.append (ih hvisit.agrees ?_ trace)
      rw [Ledger.innermost?, hvisit.running]
      exact hround

/-- A setter that a callback reaches is told truly. -/
theorem Task.accounts_set {l : Ledger} {s : Session} (h : l.Agrees s) {call : Call}
    (hround : l.innermost? = some call.round) (context role : Value) (form : Policy.Form)
    (keep? : Option Value) (given : Given) (trace : Trace) :
    Accounts l s.world (Task.story (.set context role form keep? given) call trace s)
      (Task.perform (.set context role form keep? given) call trace s).2.2 := by
  rw [Task.story, Task.perform]
  cases hset : call.set s context role form keep? given with
  | error e =>
    have hevent : call.event s context role form keep? given = .other := by
      unfold Call.event
      rw [hset]
      cases keep? <;> rfl
    rw [hevent]
    exact .single (h.congr rfl rfl) trivial rfl rfl
  | ok next =>
    rcases Call.event_cases hset with ⟨hevent, hworld, hkept⟩ | ⟨d, hevent, hworld, hkept⟩ |
      ⟨label, setter, declares, hevent, hsetter, hworld, hkept⟩
    · rw [hevent]
      have hcompiler := congrArg World.compiler hworld
      exact .single (h.congr hcompiler hkept) trivial rfl (congrArg Compiler.published hcompiler)
    · rw [hevent]
      have hstep : l.step (.set d) = l.record d (some call.round) := by
        rw [Ledger.step, hround]
      refine .single ?_ (Option.isSome_of_eq_some hround) ?_ ?_
      · rw [hstep]
        exact h.record (h.begun.innermost hround) hworld hkept
      · rw [hstep, Ledger.running_record]
      · rw [hworld]
        rfl
    · rw [hevent]
      have hcompiler := congrArg World.compiler hworld
      refine .single ⟨h.begun.step _, ?_, ?_⟩ trivial rfl (congrArg Compiler.published hcompiler)
      · change next.engine.compiler = s.engine.compiler at hcompiler
        rw [hcompiler]
        exact ⟨h.tells.count, h.tells.current, h.tells.rounds⟩
      · rw [hkept, Value.map_putEntry, hsetter, Ledger.step, h.kept, hround]

mutual

/-- Every command is told truly. -/
theorem Command.accounts : (command : Command) → {l : Ledger} → {s : Session} → l.Agrees s →
    Accounts l s.world (command.story s) (command.run s).2.2
  | .step step, l, s, h => by
    simp only [Command.story, Command.run]
    exact step.accounts h
  | .configure rules, l, s, h => by
    have hstart : (l.step (.begin true)).Agrees (s.withCompiler s.engine.compiler.stage.1) :=
      ⟨h.begun.step (.begin true), h.tells.begin _, h.kept⟩
    have hround : (l.step (.begin true)).innermost? = some s.engine.compiler.stage.2 :=
      congrArg some h.tells.count.symm
    have hinner := accounts_visitStory
      (fun hagrees hround subject visit trace => Rule.accountsAll rules hagrees
        ⟨s.engine.compiler.stage.2, s.engine.graph.contexts.map Entity.name, subject, visit⟩
        hround trace)
      hstart hround s.engine.graph.names {}
    have hrunning :
        (l.step (.begin true)).running = ⟨true, s.engine.compiler.stage.2⟩ :: l.running :=
      congrArg (fun round => (⟨true, round⟩ : Running) :: l.running) h.tells.count.symm
    simp only [Command.story, Command.run]
    generalize visitAll _ s.engine.graph.names {} _ = visits at hinner ⊢
    obtain ⟨_ | ⟨⟩, trace, next⟩ := visits
    · exact .callback hrunning hstart rfl hinner rfl rfl rfl rfl
    · exact .callback hrunning hstart rfl hinner rfl rfl rfl rfl
  | .forEachSubject rules, l, s, h => by
    have hstart : (l.step (.begin false)).Agrees s :=
      ⟨h.begun.step (.begin false), ⟨h.tells.count, h.tells.current, h.tells.rounds⟩, h.kept⟩
    have hround : (l.step (.begin false)).innermost? = some s.engine.compiler.current :=
      congrArg some h.tells.current.symm
    have hinner := accounts_visitStory
      (fun hagrees hround subject visit trace => Rule.accountsAll rules hagrees
        ⟨s.engine.compiler.current, s.engine.graph.contexts.map Entity.name, subject, visit⟩
        hround trace)
      hstart hround s.engine.graph.names {}
    simp only [Command.story, Command.run]
    generalize visitAll _ s.engine.graph.names {} _ = visits at hinner ⊢
    exact .callback rfl hstart rfl hinner rfl rfl rfl rfl

/-- The rules of a callback are told truly. -/
theorem Rule.accountsAll : (rules : List Rule) → {l : Ledger} → {s : Session} → l.Agrees s →
    (call : Call) → l.innermost? = some call.round → (trace : Trace) →
    Accounts l s.world (Rule.allStory rules call trace s) (Rule.followAll rules call trace s).2.2
  | [], l, s, h, call, hround, trace => .nil h
  | rule :: rest, l, s, h, call, hround, trace => by
    have hrule := Rule.accounts rule h call hround trace
    rw [Rule.allStory, Rule.followAll]
    generalize Rule.follow rule call trace s = followed at hrule ⊢
    obtain ⟨_ | ⟨⟩, trace, next⟩ := followed
    · rw [List.append_nil]
      exact hrule
    · refine hrule.append (Rule.accountsAll rest hrule.agrees call ?_ trace)
      rw [Ledger.innermost?, hrule.running]
      exact hround

theorem Rule.accounts : (rule : Rule) → {l : Ledger} → {s : Session} → l.Agrees s →
    (call : Call) → l.innermost? = some call.round → (trace : Trace) →
    Accounts l s.world (Rule.story rule call trace s) (Rule.follow rule call trace s).2.2
  | .mk subject? task, l, s, h, call, hround, trace => by
    rw [Rule.story, Rule.follow]
    split
    · exact Task.accounts task h call hround trace
    · exact .nil h

theorem Task.accounts : (task : Task) → {l : Ledger} → {s : Session} → l.Agrees s →
    (call : Call) → l.innermost? = some call.round → (trace : Trace) →
    Accounts l s.world (Task.story task call trace s) (Task.perform task call trace s).2.2
  | .set context role form keep? given, l, s, h, call, hround, trace =>
    Task.accounts_set h hround context role form keep? given trace
  | .fail error, l, s, h, call, hround, trace => .nil h
  | .probe, l, s, h, call, hround, trace => by
    rw [Task.story, Task.perform]
    split <;> exact .nil h
  | .run command, l, s, h, call, hround, trace => by
    rw [Task.story, Task.perform]
    exact Command.accounts command h
  | .attempt caught body handler, l, s, h, call, hround, trace => by
    have hbody := Rule.accountsAll body h call hround trace
    rw [Task.story, Task.perform]
    generalize Rule.followAll body call trace s = followed at hbody ⊢
    obtain ⟨e | ⟨⟩, trace, next⟩ := followed
    · dsimp only
      split
      · refine hbody.append (Rule.accountsAll handler hbody.agrees call ?_ trace)
        rw [Ledger.innermost?, hbody.running]
        exact hround
      · rw [List.append_nil]
        exact hbody
    · rw [List.append_nil]
      exact hbody

end

/-- Commands are told truly one after the other. -/
theorem accounts_storyOf {l : Ledger} {s : Session} (h : l.Agrees s) (commands : List Command) :
    Accounts l s.world (s.storyOf commands) (s.after commands) := by
  induction commands generalizing l s with
  | nil => exact .nil h
  | cons command rest ih =>
    have hcommand := command.accounts h
    exact hcommand.append (ih hcommand.agrees)

end Session

end AccessMatrix
