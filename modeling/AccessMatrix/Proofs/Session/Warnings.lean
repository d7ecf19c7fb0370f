import AccessMatrix.Proofs.Session.Reporting

/-!
# Warnings of redeclarations

Whatever a session runs, the warnings of redeclarations that it makes are those that the ledger of the
run reports. So in every round there are as many as declarations less their places, each is of a
declaration whose place was declared before in its round, and it says that the later declaration
replaces the earlier one just if that one can change what is compiled.
-/

namespace AccessMatrix.Session

open Outcome
open Policy (Declaration Redeclaration Round RoundId Setter)

/-- A step that neither declares nor calls a kept setter records no declaration. -/
theorem Step.recordedAt_event {step : Step} (hdeclare : ∀ r, step ≠ .declare r)
    (hcall : ∀ label given, step ≠ .callKept label given) (l : Ledger) (s : Session) :
    l.recordedAt (step.event s) = none := by
  unfold Step.event
  rcases Step.ops_eq step s with hops | hops
  · rw [hops]
    cases step <;> rfl
  · unfold Step.performOps at hops
    cases step with
    | declare r => exact absurd rfl (hdeclare r)
    | callKept label given => exact absurd rfl (hcall label given)
    | assignParents name parents =>
      dsimp only at hops
      split at hops <;> rw [hops] <;> rfl
    | _ =>
      rw [hops]
      rfl

/-- Such a step makes no warning of a redeclaration. -/
theorem Step.quiet_run {step : Step} (hdeclare : ∀ r, step ≠ .declare r)
    (hcall : ∀ label given, step ≠ .callKept label given) (s : Session) :
    Quiet s (step.run s).2 := by
  have hmention := quiet_mentionAll s step.mentions
  rw [Step.run]
  generalize s.mentionAll step.mentions = mentioned at hmention ⊢
  obtain ⟨_ | ⟨⟩, next⟩ := mentioned
  · exact hmention
  · exact hmention.trans (Step.quiet_perform hdeclare hcall next)

/-- A declaration that is refused makes no warning, and one that is accepted makes that of the
current round. -/
theorem Step.reports_declare {l : Ledger} {s : Session} (h : l.Agrees s) (r : Policy.Request) :
    Reports l s [⟨Step.event (.declare r) s, (Step.run (.declare r) s).2.world⟩]
      (Step.run (.declare r) s).2 := by
  have hmention := quiet_mentionAll s (Step.declare r).mentions
  have hworld := world_mentionAll s (Step.declare r).mentions
  have hkept := kept_mentionAll s (Step.declare r).mentions
  unfold Step.event
  rw [Step.ops, Step.run]
  generalize s.mentionAll (Step.declare r).mentions = mentioned at hmention hworld hkept ⊢
  obtain ⟨_ | ⟨⟩, next⟩ := mentioned
  · exact .quiet hmention rfl _
  · have hagrees : l.Agrees next := h.congr (congrArg World.compiler hworld) hkept
    simp only [Step.performOps, Step.perform]
    cases hcheck : r.check next.engine.graph with
    | error e => exact .quiet hmention rfl _
    | ok d =>
      refine .of_quiet hmention (.record hagrees ?_ _)
      rw [Ledger.recordedAt, ← hagrees.tells.current]

/-- A kept setter that is called makes the warning of its round. -/
theorem Step.reports_callKept {l : Ledger} {s : Session} (h : l.Agrees s) (label : Value)
    (given : Given) :
    Reports l s
      [⟨Step.event (.callKept label given) s, (Step.run (.callKept label given) s).2.world⟩]
      (Step.run (.callKept label given) s).2 := by
  have hops : Step.ops (.callKept label given) s = Step.performOps (.callKept label given) s := rfl
  have hrun : (Step.run (.callKept label given) s).2 =
      match s.callKept label given with
      | .ok next => next
      | .error _ => s := by
    simp only [Step.run, Step.mentions, mentionAll, Step.perform]
    cases s.callKept label given <;> rfl
  unfold Step.event
  rw [hops, hrun, Step.performOps]
  cases hsetter : aside s.kept label with
  | error e =>
    have hcall : s.callKept label given = .error e := by rw [Session.callKept, hsetter]; rfl
    rw [hcall]
    exact .quiet (.refl s) rfl _
  | ok setter =>
    dsimp only
    cases hcall : s.callKept label given with
    | error e =>
      have hfails : setterOps setter given = [] := by
        rw [Session.callKept, hsetter] at hcall
        exact setterOps_of_error hcall
      rw [hfails]
      exact .quiet (.refl s) rfl _
    | ok next =>
      rw [Session.callKept, hsetter] at hcall
      rcases callSetter_cases hcall with ⟨hsilent, hquiet⟩ | ⟨id, d, hround, hdeclares, rfl⟩
      · rw [hsilent]
        exact .quiet hquiet rfl _
      · rw [hdeclares]
        refine .record h ?_ _
        rw [Ledger.recordedAt, h.keptRound?, lookup_of_aside hsetter, Option.bind_some, hround]
        rfl

/-- Every step makes the warnings that the ledger reports. -/
theorem Step.reports {l : Ledger} {s : Session} (h : l.Agrees s) (step : Step) :
    Reports l s [⟨step.event s, (step.run s).2.world⟩] (step.run s).2 := by
  cases step with
  | declare r => exact Step.reports_declare h r
  | callKept label given => exact Step.reports_callKept h label given
  | _ =>
    exact .quiet (Step.quiet_run (by simp) (by simp) s)
      (Step.recordedAt_event (by simp) (by simp) l s) _

/-- A setter that a callback reaches makes the warning of the callback's round. -/
theorem Task.reports_set {l : Ledger} {s : Session} (h : l.Agrees s) {call : Call}
    (hround : l.innermost? = some call.round) (context role : Value) (form : Policy.Form)
    (keep? : Option Value) (given : Given) (trace : Trace) :
    Reports l s (Task.story (.set context role form keep? given) call trace s)
      (Task.perform (.set context role form keep? given) call trace s).2.2 := by
  rw [Task.story, Task.perform]
  cases hset : call.set s context role form keep? given with
  | error e =>
    have hevent : call.event s context role form keep? given = .other := by
      unfold Call.event
      rw [hset]
      cases keep? <;> rfl
    rw [hevent]
    exact .quiet (.refl s) rfl _
  | ok next =>
    obtain ⟨setter, hsetter, hnext⟩ := Call.set_ok hset
    cases keep? with
    | some label =>
      have hevent : ∃ declares, call.event s context role form (some label) given =
          .keep label declares := by
        unfold Call.event
        rw [hset]
        exact ⟨_, rfl⟩
      obtain ⟨declares, hevent⟩ := hevent
      have hquiet : Quiet s next := hnext ▸ ⟨rfl, rfl⟩
      rw [hevent]
      exact .quiet hquiet rfl _
    | none =>
      have hops : call.setOps s context role form none given = setterOps setter given :=
        Call.setOps_of_setter hsetter given
      unfold Call.event
      rw [hset, hops]
      rcases callSetter_cases hnext with ⟨hsilent, hquiet⟩ | ⟨id, d, hid, hdeclares, rfl⟩
      · rw [hsilent]
        exact .quiet hquiet rfl _
      · rw [hdeclares]
        obtain rfl := Call.round_setter hsetter hid
        refine .record h ?_ _
        rw [Ledger.recordedAt, hround]
        rfl

/-- A callback makes the warnings that the ledger reports from subject to subject. -/
theorem reports_visitStory {callback : String → Nat → Trace → Session → Visit}
    {story : String → Nat → Trace → Session → List Moment} {round : RoundId}
    (h : ∀ {l : Ledger} {s : Session}, l.Agrees s → l.innermost? = some round →
      ∀ subject visit trace, Accounts l s.world (story subject visit trace s)
        (callback subject visit trace s).2.2 ∧
        Reports l s (story subject visit trace s) (callback subject visit trace s).2.2)
    {l : Ledger} {s : Session} (hagrees : l.Agrees s) (hround : l.innermost? = some round)
    (subjects : List String) (trace : Trace) :
    Reports l s (visitStory callback story subjects trace s)
      (visitAll callback subjects trace s).2.2 := by
  induction subjects generalizing l trace s with
  | nil => exact .nil (.refl s)
  | cons subject rest ih =>
    rw [visitStory, visitAll]
    have hvisit : Quiet s { s with visits := s.visits + 1 } := ⟨rfl, rfl⟩
    obtain ⟨haccounts, hreports⟩ := h (s := { s with visits := s.visits + 1 })
      (hagrees.congr rfl rfl) hround subject s.visits
      { trace with visited := trace.visited ++ [subject] }
    generalize callback subject s.visits _ _ = visit at haccounts hreports ⊢
    obtain ⟨_ | ⟨⟩, trace, next⟩ := visit
    · rw [List.append_nil]
      exact .of_quiet hvisit hreports
    · refine .of_quiet hvisit (hreports.append (ih haccounts.agrees ?_ trace))
      rw [Ledger.innermost?, haccounts.running]
      exact hround

mutual

/-- Every command makes the warnings that the ledger reports. -/
theorem Command.reports : (command : Command) → {l : Ledger} → {s : Session} → l.Agrees s →
    Reports l s (command.story s) (command.run s).2.2
  | .step step, l, s, h => by
    simp only [Command.story, Command.run]
    exact step.reports h
  | .configure rules, l, s, h => by
    have hstart : (l.step (.begin true)).Agrees (s.withCompiler s.engine.compiler.stage.1) :=
      ⟨h.begun.step (.begin true), h.tells.begin _, h.kept⟩
    have hround : (l.step (.begin true)).innermost? = some s.engine.compiler.stage.2 :=
      congrArg some h.tells.count.symm
    have hinner := reports_visitStory
      (fun hagrees hround subject visit trace =>
        Rule.reportsAll rules hagrees
          ⟨s.engine.compiler.stage.2, s.engine.graph.contexts.map Entity.name, subject, visit⟩
          hround trace)
      hstart hround s.engine.graph.names {}
    have hbegin : Quiet s (s.withCompiler s.engine.compiler.stage.1) := ⟨rfl, rfl⟩
    simp only [Command.story, Command.run]
    generalize visitAll _ s.engine.graph.names {} _ = visits at hinner ⊢
    obtain ⟨_ | ⟨⟩, trace, next⟩ := visits
    · exact .callback hbegin hinner (.refl next) _ _
    · have hnext : Quiet next (next.withCompiler
          (next.engine.compiler.adopt next.engine.graph s.engine.compiler.stage.2)) := ⟨rfl, rfl⟩
      have hinfo : Log.Level.info ≠ .warning := by decide
      exact .callback hbegin hinner (hnext.note (.ofEngine .info _ _) hinfo) _ _
  | .forEachSubject rules, l, s, h => by
    have hstart : (l.step (.begin false)).Agrees s :=
      ⟨h.begun.step (.begin false), ⟨h.tells.count, h.tells.current, h.tells.rounds⟩, h.kept⟩
    have hround : (l.step (.begin false)).innermost? = some s.engine.compiler.current :=
      congrArg some h.tells.current.symm
    have hinner := reports_visitStory
      (fun hagrees hround subject visit trace =>
        Rule.reportsAll rules hagrees
          ⟨s.engine.compiler.current, s.engine.graph.contexts.map Entity.name, subject, visit⟩
          hround trace)
      hstart hround s.engine.graph.names {}
    simp only [Command.story, Command.run]
    generalize visitAll _ s.engine.graph.names {} _ = visits at hinner ⊢
    exact .callback (.refl s) hinner (.refl _) _ _

/-- The rules of a callback make the warnings that the ledger reports, and are told truly. -/
theorem Rule.reportsAll : (rules : List Rule) → {l : Ledger} → {s : Session} → l.Agrees s →
    (call : Call) → l.innermost? = some call.round → (trace : Trace) →
    Accounts l s.world (Rule.allStory rules call trace s) (Rule.followAll rules call trace s).2.2 ∧
      Reports l s (Rule.allStory rules call trace s) (Rule.followAll rules call trace s).2.2
  | [], l, s, h, call, hround, trace => ⟨.nil h, .nil (.refl s)⟩
  | rule :: rest, l, s, h, call, hround, trace => by
    refine ⟨Rule.accountsAll (rule :: rest) h call hround trace, ?_⟩
    have haccounts := Rule.accounts rule h call hround trace
    have hreports := Rule.reports rule h call hround trace
    rw [Rule.allStory, Rule.followAll]
    generalize Rule.follow rule call trace s = followed at haccounts hreports ⊢
    obtain ⟨_ | ⟨⟩, trace, next⟩ := followed
    · rw [List.append_nil]
      exact hreports
    · refine hreports.append (Rule.reportsAll rest haccounts.agrees call ?_ trace).2
      rw [Ledger.innermost?, haccounts.running]
      exact hround

theorem Rule.reports : (rule : Rule) → {l : Ledger} → {s : Session} → l.Agrees s →
    (call : Call) → l.innermost? = some call.round → (trace : Trace) →
    Reports l s (Rule.story rule call trace s) (Rule.follow rule call trace s).2.2
  | .mk subject? task, l, s, h, call, hround, trace => by
    rw [Rule.story, Rule.follow]
    split
    · exact Task.reports task h call hround trace
    · exact .nil (.refl s)

theorem Task.reports : (task : Task) → {l : Ledger} → {s : Session} → l.Agrees s →
    (call : Call) → l.innermost? = some call.round → (trace : Trace) →
    Reports l s (Task.story task call trace s) (Task.perform task call trace s).2.2
  | .set context role form keep? given, l, s, h, call, hround, trace =>
    Task.reports_set h hround context role form keep? given trace
  | .fail error, l, s, h, call, hround, trace => .nil (.refl s)
  | .probe, l, s, h, call, hround, trace => by
    rw [Task.story, Task.perform]
    split <;> exact .nil (.refl s)
  | .run command, l, s, h, call, hround, trace => by
    rw [Task.story, Task.perform]
    exact Command.reports command h
  | .attempt caught body handler, l, s, h, call, hround, trace => by
    obtain ⟨haccounts, hreports⟩ := Rule.reportsAll body h call hround trace
    rw [Task.story, Task.perform]
    generalize Rule.followAll body call trace s = followed at haccounts hreports ⊢
    obtain ⟨e | ⟨⟩, trace, next⟩ := followed
    · dsimp only
      split
      · refine hreports.append (Rule.reportsAll handler haccounts.agrees call ?_ trace).2
        rw [Ledger.innermost?, haccounts.running]
        exact hround
      · rw [List.append_nil]
        exact hreports
    · rw [List.append_nil]
      exact hreports

end

/-- Commands one after the other make the warnings that the ledger reports. -/
theorem reports_storyOf {l : Ledger} {s : Session} (h : l.Agrees s) (commands : List Command) :
    Reports l s (s.storyOf commands) (s.after commands) := by
  induction commands generalizing l s with
  | nil => exact .nil (.refl s)
  | cons command rest ih => exact (command.reports h).append (ih (command.accounts h).agrees)

/-- Redeclarations over whole runs. Let a session be new, and keep a ledger of all that happens by some
commands. Then its warnings of redeclarations are those of some declarations, one for each and in their
order. Every round holds what the ledger has recorded in it, and the warned
declarations of the round are those whose place was declared before them there, so there are as many as
declarations less their places. The warning of such a declaration says that it replaces the earlier one
just if it is a context's on itself, and just such a declaration can change what is compiled into the
cell that it addresses. -/
theorem redeclarations_reported {s : Session} (hworld : s.world = {}) (hkept : s.kept = [])
    (commands : List Command) :
    let last := s.after commands
    let ledger := Ledger.after {} (s.storyOf commands)
    ∃ reported : List (RoundId × Declaration),
      redeclarations last.records = redeclarations s.records ++
        reported.map (fun entry => redeclarationRecord s.engine.name entry.2) ∧
      ∀ id,
        let ds := ledger.recorded id
        let warned := Ledger.reportsOn id reported
        last.engine.compiler.round id = Round.ofDeclarations ds ∧
        warned = Policy.repeated ds ∧
        warned.length + (ds.map Declaration.place).eraseDups.length = ds.length ∧
        ∀ before d later, ds = before ++ d :: later → d.place ∈ before.map Declaration.place →
          ∀ g, Policy.ReportedRightly g before d := by
  intro last ledger
  have hagrees := agrees_new hworld hkept
  have hreports := reports_storyOf hagrees commands
  have haccounts := accounts_storyOf hagrees commands
  refine ⟨Ledger.reported {} (s.storyOf commands), hreports.records, fun id => ?_⟩
  intro ds warned
  have hnone : Ledger.recorded {} id = [] := by cases id <;> rfl
  have hwarned : Policy.repeated ds = warned := by
    have hrepeated := Ledger.repeated_recorded hagrees.begun (s.storyOf commands) id
    rw [hnone] at hrepeated
    exact hrepeated
  refine ⟨haccounts.agrees.tells.rounds id, hwarned.symm, ?_, fun before d later _ hplace g => ?_⟩
  · rw [← hwarned]
    exact Policy.length_repeated ds
  · exact Policy.reportedRightly g hplace

/-- The admin of the office is declared again, by the office on itself and by naming the role. -/
def repeatedCommands : List Command :=
  officeCommands ++
    [.step (.declare { context := .own "org", role := .text "admin", subject := .own "org",
                       actions := .mapping [(.text "write", .bool true)] }),
      .step (.declare { context := .own "org", role := .text "admin", subject := .own "org",
                        actions := .mapping [], subjectRole? := some (.text "admin") })]

/-- Three declarations of the admin have one place, so there are two warnings: one that the later
declaration replaces the earlier one, and one that it is ignored. -/
theorem redeclarations_reported_office :
    let last := ({} : Session).after repeatedCommands
    ({} : Session).world = {} ∧ ({} : Session).kept = [] ∧
      (redeclarations last.records).map Log.Record.message =
        ["Access policy org-admin-org-admin redeclared; " ++
            "the later declaration replaces the earlier one",
          "Access policy org-admin-org-admin redeclared; the later declaration is ignored"] ∧
      ∃ reported, (redeclarations last.records).length = reported.length ∧
        (Ledger.reportsOn 0 reported).length = 2 := by
  intro last
  obtain ⟨reported, hrecords, hrounds⟩ :=
    redeclarations_reported (s := {}) rfl rfl repeatedCommands
  obtain ⟨-, -, hcount, -⟩ := hrounds 0
  have hdeclared :
      ((Ledger.after {} (({} : Session).storyOf repeatedCommands)).recorded 0).length = 3 := by
    decide +kernel
  have hplaces : (((Ledger.after {} (({} : Session).storyOf repeatedCommands)).recorded 0).map
      Declaration.place).eraseDups.length = 1 := by
    decide +kernel
  refine ⟨rfl, rfl, by decide +kernel, reported, ?_, ?_⟩
  · have hlength := congrArg List.length hrecords
    simpa [redeclarations] using hlength
  · rw [hplaces, hdeclared] at hcount
    exact Nat.add_right_cancel hcount

end AccessMatrix.Session
