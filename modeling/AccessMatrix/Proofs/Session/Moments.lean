import AccessMatrix.Proofs.Session.Inverse

/-!
# Moments of a session

A session is looked at between commands and also in the midst of callbacks, which run commands of their
own. Whatever led to a moment, what is declared in any round names registered entities, a setter that
was kept does so too or belongs to a view of an earlier visit, and only views of earlier visits were
altered.
-/

namespace AccessMatrix.Session

open Outcome
open Policy (Compiler Declaration Round RoundId Setter Request)

/-- A callback at work in a session: it sees registered contexts, was called for a registered subject,
and the visit is counted. -/
structure Call.Within (call : Call) (s : Session) : Prop where
  contexts : ∀ name ∈ call.contexts, name ∈ s.engine.graph.names
  subject : call.subject ∈ s.engine.graph.names
  visit : call.visit < s.visits

/-- What a session leads to: by a step, by the beginning of a visit and by a setter that a callback
reaches, and by a configuration, which works on a round of its own and may adopt it. -/
inductive LeadsTo : Session → Session → Prop where
  | refl (s : Session) : LeadsTo s s
  | trans {s t u : Session} (h : LeadsTo s t) (h' : LeadsTo t u) : LeadsTo s u
  | step (step : Step) (s : Session) : LeadsTo s (step.run s).2
  | visit (s : Session) : LeadsTo s { s with visits := s.visits + 1 }
  | set {call : Call} {s t : Session} {context role : Value} {form : Policy.Form}
    {keep? : Option Value} {given : Given} (hcall : call.Within s)
    (h : call.set s context role form keep? given = .ok t) : LeadsTo s t
  | staged {s t : Session} (h : LeadsTo (s.withCompiler s.engine.compiler.stage.1) t) : LeadsTo s t
  | configured {s t : Session} (h : LeadsTo (s.withCompiler s.engine.compiler.stage.1) t) :
    LeadsTo s (t.publish (t.engine.compiler.adopt t.engine.graph s.ownRound))

/-- What a session leads to by operations on its world. -/
theorem LeadsTo.runs {s t : Session} (h : LeadsTo s t) : ∃ ops, Runs s.world ops t.world := by
  induction h with
  | refl s => exact ⟨_, .nil _⟩
  | trans _ _ ih ih' =>
    obtain ⟨ops, hops⟩ := ih
    obtain ⟨later, hlater⟩ := ih'
    exact ⟨_, hops.append hlater⟩
  | step step s =>
    refine ⟨step.ops s, ?_⟩
    rw [step.world_run]
    exact .plain (step.ops_plain s)
  | visit s => exact ⟨_, .nil _⟩
  | @set call s t context role form keep? given _ h =>
    have hruns := call.runs_setOps s context role form keep? given
    rw [h] at hruns
    exact ⟨_, hruns⟩
  | @staged s _ _ ih =>
    obtain ⟨ops, hops⟩ := ih
    exact ⟨_, .failed (w := s.world) hops⟩
  | @configured s _ _ ih =>
    obtain ⟨ops, hops⟩ := ih
    exact ⟨_, .configured (w := s.world) hops⟩

/-- Registered names stay registered. -/
theorem World.mem_names_apply {w : World} (op : Operation) {name : String}
    (h : name ∈ w.graph.names) : name ∈ (w.apply op).graph.names := by
  cases op with
  | register r =>
    rw [World.apply]
    split
    · rename_i g e hregister
      obtain ⟨old, hold, rfl⟩ := Graph.mem_names.mp h
      obtain ⟨later, hlater, hsame⟩ := Graph.Within.register hregister old hold
      exact Graph.mem_names.mpr ⟨later, hlater, hsame.name⟩
    · exact h
  | assignParents entity parents =>
    rw [World.apply, Graph.names_assignParents]
    exact h
  | declare _ | call _ _ | clear | build | stage | adopt _ => exact h

/-- Registered names stay registered in a run. -/
theorem Runs.mem_names {w w' : World} {ops : List Operation} (h : Runs w ops w') {name : String}
    (hname : name ∈ w.graph.names) : name ∈ w'.graph.names :=
  h.keeps (motive := fun w => name ∈ w.graph.names) (fun _ op hw _ => World.mem_names_apply op hw)
    hname

theorem LeadsTo.mem_names {s t : Session} (h : LeadsTo s t) {name : String}
    (hname : name ∈ s.engine.graph.names) : name ∈ t.engine.graph.names := by
  obtain ⟨ops, hops⟩ := h.runs
  exact hops.mem_names hname

/-- Looking up references changes nothing but the entities of another graph and the log. -/
theorem mentionAll_eq (s : Session) (refs : List Ref) :
    ∃ g records, (s.mentionAll refs).2 = { s with elsewhere := g, records := records } := by
  induction refs generalizing s with
  | nil => exact ⟨_, _, rfl⟩
  | cons ref rest ih =>
    rw [mentionAll]
    split
    · exact ⟨_, _, rfl⟩
    · rename_i next hnext
      obtain ⟨g, records, hrest⟩ := ih next
      rw [hrest]
      cases ref with
      | own name =>
        rw [mention] at hnext
        split at hnext
        · obtain rfl := Except.ok.inj hnext
          exact ⟨_, _, rfl⟩
        · contradiction
      | foreign name =>
        rw [mention] at hnext
        split at hnext
        · obtain rfl := Except.ok.inj hnext
          exact ⟨_, _, rfl⟩
        · obtain ⟨⟨g, e⟩, -, rfl⟩ := map_eq_ok.mp hnext
          exact ⟨_, _, rfl⟩
      | value v =>
        obtain rfl := Except.ok.inj hnext
        exact ⟨_, _, rfl⟩

/-- A step visits nobody, and alters no view unless it calls a kept setter. -/
theorem Step.rest_perform (step : Step) (s : Session) :
    (step.perform s).2.visits = s.visits ∧
      ((step.perform s).2.views = s.views ∨
        ∃ label given, step = .callKept label given ∧
          s.callKept label given = .ok (step.perform s).2) := by
  cases step with
  | register r =>
    refine of_whole (motive := fun t => t.visits = s.visits ∧ (t.views = s.views ∨ _)) ⟨rfl, .inl rfl⟩
      fun h => ?_
    obtain ⟨⟨e, registered⟩, hregister, h⟩ := map_eq_ok.mp h
    obtain ⟨⟨g, e⟩, -, hregister⟩ := map_eq_ok.mp hregister
    cases hregister
    cases h
    exact ⟨rfl, .inl rfl⟩
  | callKept label given =>
    simp only [Step.perform]
    cases hcalled : s.callKept label given with
    | error e => exact ⟨rfl, .inl rfl⟩
    | ok called =>
      refine ⟨?_, .inr ⟨label, given, rfl, hcalled⟩⟩
      obtain ⟨setter, -, hcalled⟩ := bind_eq_ok.mp hcalled
      obtain ⟨arguments, -, hcalled⟩ := bind_eq_ok.mp hcalled
      obtain ⟨outcome, -, rfl⟩ := map_eq_ok.mp hcalled
      rfl
  | assignParents _ _ | role _ _ | paths _ | relationships _ =>
    refine of_whole (motive := fun t => t.visits = s.visits ∧ (t.views = s.views ∨ _)) ⟨rfl, .inl rfl⟩
      fun h => ?_
    obtain ⟨found, -, h⟩ := bind_eq_ok.mp h
    obtain ⟨answer, -, h⟩ := bind_eq_ok.mp h
    cases h
    exact ⟨rfl, .inl rfl⟩
  | allowanceFor _ _ | cell _ _ _ _ =>
    refine of_whole (motive := fun t => t.visits = s.visits ∧ (t.views = s.views ∨ _)) ⟨rfl, .inl rfl⟩
      fun h => ?_
    obtain ⟨found, -, h⟩ := bind_eq_ok.mp h
    cases h
    exact ⟨rfl, .inl rfl⟩
  | declare _ | registerAgain _ | entity _ | require _ | contains _ | compareRoles _ _ | hold _
    | compiled _ | declared _ _ _ _ | hierarchy =>
    refine of_whole (motive := fun t => t.visits = s.visits ∧ (t.views = s.views ∨ _)) ⟨rfl, .inl rfl⟩
      fun h => ?_
    obtain ⟨answer, -, h⟩ := map_eq_ok.mp h
    cases h
    exact ⟨rfl, .inl rfl⟩
  | build | clear | graph | adaptMemberships _ | adaptSubjects _ | isAllowed _ _ _ | explain _ _ _
    | actorPolicies _ _ | resolve _ _ | refused _ _ => exact ⟨rfl, .inl rfl⟩

/-- A step visits nobody, whatever it mentions. -/
theorem Step.visits_run (step : Step) (s : Session) : (step.run s).2.visits = s.visits := by
  have hmention : (s.mentionAll step.mentions).2.visits = s.visits := by
    obtain ⟨g, records, hmention⟩ := mentionAll_eq s step.mentions
    rw [hmention]
  rw [Step.run]
  generalize s.mentionAll step.mentions = mentioned at hmention ⊢
  obtain ⟨_ | ⟨⟩, next⟩ := mentioned
  · exact hmention
  · exact (step.rest_perform next).1.trans hmention

/-- A setter that a callback reaches visits nobody. -/
theorem Call.visits_set {call : Call} {s t : Session} {context role : Value} {form : Policy.Form}
    {keep? : Option Value} {given : Given} (h : call.set s context role form keep? given = .ok t) :
    t.visits = s.visits := by
  obtain ⟨setter, -, hnext⟩ := Call.set_ok h
  cases keep? with
  | some label =>
    dsimp only at hnext
    rw [hnext]
  | none =>
    obtain ⟨arguments, -, hnext⟩ := bind_eq_ok.mp hnext
    obtain ⟨outcome, -, rfl⟩ := map_eq_ok.mp hnext
    rfl

/-- Visits are counted and never forgotten. -/
theorem LeadsTo.visits_le {s t : Session} (h : LeadsTo s t) : s.visits ≤ t.visits := by
  induction h with
  | refl s => exact Nat.le_refl _
  | trans _ _ ih ih' => exact Nat.le_trans ih ih'
  | step step s => exact Nat.le_of_eq (step.visits_run s).symm
  | visit s => exact Nat.le_succ _
  | set _ h => exact Nat.le_of_eq (Call.visits_set h).symm
  | staged _ ih => exact ih
  | configured _ ih => exact ih

/-- A callback at work stays so. -/
theorem Call.Within.later {call : Call} {s t : Session} (h : call.Within s) (ht : LeadsTo s t) :
    call.Within t where
  contexts name hname := ht.mem_names (h.contexts name hname)
  subject := ht.mem_names h.subject
  visit := Nat.lt_of_lt_of_le h.visit ht.visits_le

/-- A callback that leads wherever it is at work leads from subject to subject. -/
theorem leadsTo_visitAll {callback : String → Nat → Trace → Session → Visit} {contexts : List String}
    {round : RoundId}
    (h : ∀ subject visit trace s, Call.Within ⟨round, contexts, subject, visit⟩ s →
      LeadsTo s (callback subject visit trace s).2.2)
    (subjects : List String) (trace : Trace) {s : Session}
    (hsubjects : ∀ name ∈ subjects, name ∈ s.engine.graph.names)
    (hcontexts : ∀ name ∈ contexts, name ∈ s.engine.graph.names) :
    LeadsTo s (visitAll callback subjects trace s).2.2 := by
  induction subjects generalizing trace s with
  | nil => exact .refl s
  | cons subject rest ih =>
    obtain ⟨hsubject, hrest⟩ := List.forall_mem_cons.mp hsubjects
    have hvisit := h subject s.visits { trace with visited := trace.visited ++ [subject] }
      { s with visits := s.visits + 1 } ⟨hcontexts, hsubject, Nat.lt_succ_self _⟩
    rw [visitAll]
    generalize callback subject s.visits _ _ = visit at hvisit ⊢
    obtain ⟨_ | ⟨⟩, trace, next⟩ := visit
    · exact .trans (.visit s) hvisit
    · have hnext : LeadsTo s next := .trans (.visit s) hvisit
      exact hnext.trans (ih trace (fun name hname => hnext.mem_names (hrest name hname))
        fun name hname => hnext.mem_names (hcontexts name hname))

/-- The contexts that a callback sees are registered. -/
theorem contexts_registered (s : Session) :
    ∀ name ∈ s.engine.graph.contexts.map Entity.name, name ∈ s.engine.graph.names := by
  intro name hname
  obtain ⟨e, he, rfl⟩ := List.mem_map.mp hname
  exact Graph.mem_names.mpr ⟨e, (List.mem_filter.mp he).1, rfl⟩

mutual

/-- A session leads to what any command makes of it. -/
theorem Command.leadsTo : (command : Command) → (s : Session) → LeadsTo s (command.run s).2.2
  | .step step, s => .step step s
  | .configure rules, s => by
    have hvisits := leadsTo_visitAll (fun subject visit trace t => Rule.leadsTo_all rules
        ⟨s.engine.compiler.stage.2, s.engine.graph.contexts.map Entity.name, subject, visit⟩ trace t)
      s.engine.graph.names {} (s := s.withCompiler s.engine.compiler.stage.1)
      (fun _ hname => hname) (contexts_registered s)
    simp only [Command.run]
    generalize visitAll _ s.engine.graph.names {} _ = visits at hvisits ⊢
    obtain ⟨_ | ⟨⟩, trace, next⟩ := visits
    · exact .staged hvisits
    · exact .configured hvisits
  | .forEachSubject rules, s => by
    simp only [Command.run]
    exact leadsTo_visitAll (fun subject visit trace t => Rule.leadsTo_all rules _ trace t)
      s.engine.graph.names {} (fun _ hname => hname) (contexts_registered s)

theorem Rule.leadsTo_all : (rules : List Rule) → (call : Call) → (trace : Trace) → (s : Session) →
    call.Within s → LeadsTo s (Rule.followAll rules call trace s).2.2
  | [], call, trace, s, _ => .refl s
  | rule :: rest, call, trace, s, hcall => by
    have hrule := Rule.leadsTo rule call trace s hcall
    rw [Rule.followAll]
    generalize Rule.follow rule call trace s = followed at hrule ⊢
    obtain ⟨_ | ⟨⟩, trace, next⟩ := followed
    · exact hrule
    · exact hrule.trans (Rule.leadsTo_all rest call trace next (hcall.later hrule))

theorem Rule.leadsTo : (rule : Rule) → (call : Call) → (trace : Trace) → (s : Session) →
    call.Within s → LeadsTo s (Rule.follow rule call trace s).2.2
  | .mk subject? task, call, trace, s, hcall => by
    rw [Rule.follow]
    split
    · exact Task.leadsTo task call trace s hcall
    · exact .refl s

theorem Task.leadsTo : (task : Task) → (call : Call) → (trace : Trace) → (s : Session) →
    call.Within s → LeadsTo s (Task.perform task call trace s).2.2
  | .set context role form keep? given, call, trace, s, hcall => by
    rw [Task.perform]
    cases hset : call.set s context role form keep? given with
    | error e => exact .refl s
    | ok next => exact .set hcall hset
  | .fail error, call, trace, s, _ => .refl s
  | .probe, call, trace, s, _ => by
    rw [Task.perform]
    split <;> exact .refl s
  | .run command, call, trace, s, _ => by
    rw [Task.perform]
    exact Command.leadsTo command s
  | .attempt caught body handler, call, trace, s, hcall => by
    have hbody := Rule.leadsTo_all body call trace s hcall
    rw [Task.perform]
    generalize Rule.followAll body call trace s = followed at hbody ⊢
    obtain ⟨e | ⟨⟩, trace, next⟩ := followed
    · dsimp only
      split
      · exact hbody.trans (Rule.leadsTo_all handler call trace next (hcall.later hbody))
      · exact hbody
    · exact hbody

end

/-- Commands one after the other lead where a session leads. -/
theorem leadsTo_after (s : Session) (commands : List Command) : LeadsTo s (s.after commands) := by
  induction commands generalizing s with
  | nil => exact .refl s
  | cons command rest ih => exact (command.leadsTo s).trans (ih _)

/-- A declaration names registered entities. -/
structure DeclaredIn (g : Graph) (d : Declaration) : Prop where
  context : d.context.text ∈ g.names
  subject : d.subject.text ∈ g.names

theorem DeclaredIn.later {g g' : Graph} {d : Declaration} (h : DeclaredIn g d)
    (hnames : ∀ name ∈ g.names, name ∈ g'.names) : DeclaredIn g' d :=
  ⟨hnames _ h.context, hnames _ h.subject⟩

/-- What an operation declares, in the current round or in that of a setter. -/
def Operation.declared? : Operation → Option Declaration
  | .declare d | .call _ d => some d
  | _ => none

namespace World

/-- Every round holds declarations that name registered entities. -/
def Declared (w : World) : Prop :=
  ∀ id, ∃ ds, w.compiler.round id = .ofDeclarations ds ∧ ∀ d ∈ ds, DeclaredIn w.graph d

/-- An operation leaves what a round holds or adds what it declares. -/
theorem round_apply_cases (w : World) (op : Operation) (id : RoundId) :
    (w.apply op).compiler.round id = w.compiler.round id ∨
      ∃ d, op.declared? = some d ∧
        (w.apply op).compiler.round id = ((w.compiler.round id).add d).1 := by
  have hrecord (round : RoundId) (d : Declaration) :
      (w.compiler.record round d).1.round id = w.compiler.round id ∨
        (w.compiler.record round d).1.round id = ((w.compiler.round id).add d).1 := by
    by_cases hsame : round = id
    · subst hsame
      by_cases hbegun : round < w.compiler.rounds.length
      · exact .inr ((Compiler.round_record _ _ _ d hbegun).trans (if_pos rfl))
      · exact .inl (by simp [Compiler.record, Compiler.round, Nat.le_of_not_lt hbegun])
    · exact .inl (round_record_of_ne _ d hsame)
  cases op with
  | register r =>
    left
    rw [apply]
    split <;> rfl
  | declare d => exact (hrecord _ d).imp_right fun h => ⟨d, rfl, h⟩
  | call round d => exact (hrecord round d).imp_right fun h => ⟨d, rfl, h⟩
  | clear | stage => exact .inl (Compiler.round_stage _ _)
  | assignParents _ _ | build | adopt _ => exact .inl rfl

/-- An operation that declares for registered entities keeps rounds so. -/
theorem Declared.apply {w : World} (h : w.Declared) {op : Operation}
    (hop : ∀ d, op.declared? = some d → DeclaredIn w.graph d) : (w.apply op).Declared := by
  intro id
  obtain ⟨ds, hds, hnamed⟩ := h id
  have hlater {d : Declaration} (hd : DeclaredIn w.graph d) : DeclaredIn (w.apply op).graph d :=
    hd.later fun _ hname => mem_names_apply op hname
  rcases round_apply_cases w op id with hsame | ⟨d, hd, hadded⟩
  · exact ⟨ds, hsame.trans hds, fun d hd => hlater (hnamed d hd)⟩
  · refine ⟨ds ++ [d], ?_, List.forall_mem_append.mpr ⟨fun d hd => hlater (hnamed d hd), ?_⟩⟩
    · rw [hadded, hds, Round.ofDeclarations_concat]
    · exact List.forall_mem_singleton.mpr (hlater (hop d hd))

/-- Operations that declare for registered entities keep rounds so. -/
theorem Declared.replay {w : World} (h : w.Declared) {ops : List Operation}
    (hops : ∀ op ∈ ops, ∀ d, op.declared? = some d → DeclaredIn w.graph d) :
    (w.replay ops).Declared := by
  induction ops generalizing w with
  | nil => exact h
  | cons op rest ih =>
    obtain ⟨hop, hrest⟩ := List.forall_mem_cons.mp hops
    refine ih (h.apply hop) fun other hother d hd => ?_
    exact (hrest other hother d hd).later fun _ hname => mem_names_apply op hname

end World

/-- A setter declares for registered entities, or belongs to a view of an earlier visit. -/
def MadeBefore (s : Session) : Setter → Prop
  | .policy _ context _ subject =>
    context.text ∈ s.engine.graph.names ∧ subject.text ∈ s.engine.graph.names
  | .member id _ _ => id.visit < s.visits
  | .value _ _ => True

/-- What was made before was so later on. -/
theorem MadeBefore.later {s t : Session} {setter : Setter} (h : s.MadeBefore setter)
    (hnames : ∀ name ∈ s.engine.graph.names, name ∈ t.engine.graph.names)
    (hvisits : s.visits ≤ t.visits) : t.MadeBefore setter := by
  cases setter with
  | policy round context role subject => exact ⟨hnames _ h.1, hnames _ h.2⟩
  | member id made m => exact Nat.lt_of_lt_of_le h hvisits
  | value kind title => trivial

/-- What holds at every moment: rounds hold declarations that name registered entities, the setters
that were put aside were made before, and so were the views that were altered. -/
structure Orderly (s : Session) : Prop where
  rounds : s.world.Declared
  kept : ∀ entry ∈ s.kept, s.MadeBefore entry.2
  views : ∀ entry ∈ s.views, entry.1.visit < s.visits

/-- What a call of a setter declares is what the setter was made for. -/
theorem declaration_eq_ok {context role subject : Name} {given : Option Value} {named : Value}
    {d : Declaration} (h : Setter.declaration context role subject given named = .ok d) :
    d.context = context ∧ d.role = role ∧ d.subject = subject ∧ d.scope = .every := by
  obtain ⟨arguments, -, h⟩ := bind_eq_ok.mp h
  obtain ⟨entries, -, h⟩ := bind_eq_ok.mp h
  obtain ⟨actions, -, h⟩ := bind_eq_ok.mp h
  obtain rfl := pure_eq_ok.mp h
  exact ⟨rfl, rfl, rfl, rfl⟩

/-- A setter that was made before declares for registered entities. -/
theorem declaredIn_setterOps {s : Session} {setter : Setter} (h : s.MadeBefore setter)
    (given : Given) :
    ∀ op ∈ setterOps setter given, ∀ d, op.declared? = some d → DeclaredIn s.engine.graph d := by
  intro op hop d hd
  unfold setterOps at hop
  split at hop
  · split at hop
    · rename_i declared hdeclared
      obtain rfl := List.mem_singleton.mp hop
      obtain rfl : declared = d := Option.some.inj hd
      obtain ⟨hcontext, -, hsubject, -⟩ := declaration_eq_ok hdeclared
      exact ⟨hcontext ▸ h.1, hsubject ▸ h.2⟩
    · contradiction
  · contradiction

/-- A step declares for registered entities. -/
theorem Step.declaredIn_ops {s : Session} (hreached : s.world.Reached) (h : s.Orderly)
    (step : Step) :
    ∀ op ∈ step.ops s, ∀ d, op.declared? = some d → DeclaredIn s.engine.graph d := by
  intro op hop d hd
  have hgraph : (s.mentionAll step.mentions).2.engine.graph = s.engine.graph :=
    congrArg World.graph (world_mentionAll s step.mentions)
  rcases Step.ops_eq step s with hops | hops
  · rw [hops] at hop
    contradiction
  rw [hops] at hop
  unfold Step.performOps at hop
  cases step with
  | declare r =>
    dsimp only at hop
    rw [hgraph] at hop
    split at hop
    · rename_i declared hcheck
      obtain rfl := List.mem_singleton.mp hop
      obtain rfl : declared = d := Option.some.inj hd
      obtain ⟨context, subject, hvalid, hdeclares⟩ :=
        (Request.check_eq_ok_iff hreached.sound.wellNamed.names_nodup).mp hcheck
      refine ⟨?_, ?_⟩
      · rw [hdeclares.context_label]
        exact Graph.mem_names.mpr ⟨context, hvalid.context_means.1, rfl⟩
      · rw [hdeclares.subject_label]
        exact Graph.mem_names.mpr ⟨subject, hvalid.subject_means.1, rfl⟩
    · contradiction
  | callKept label given =>
    dsimp only at hop
    rw [kept_mentionAll] at hop
    split at hop
    · rename_i setter hsetter
      obtain ⟨entry, hentry, rfl⟩ := Option.map_eq_some_iff.mp (lookup_of_aside hsetter)
      have hmade := h.kept entry (List.mem_of_find?_eq_some hentry)
      exact declaredIn_setterOps hmade given op hop d hd
    · contradiction
  | assignParents name parents =>
    dsimp only at hop
    split at hop
    · obtain rfl := List.mem_singleton.mp hop
      contradiction
    · contradiction
  | register _ | build | clear =>
    obtain rfl := List.mem_singleton.mp hop
    contradiction
  | _ => contradiction

/-- A call of a setter that was made before alters only views of earlier visits. -/
theorem callSetter_ok {s t : Session} {setter : Setter} {given : Given} (h : s.MadeBefore setter)
    (hcall : (do let (value?, named) ← given
                 s.callSetter setter value? named) = .ok t) :
    t.kept = s.kept ∧ t.visits = s.visits ∧
      ∀ entry ∈ t.views, entry ∈ s.views ∨ entry.1.visit < s.visits := by
  obtain ⟨⟨value?, named⟩, -, hcall⟩ := bind_eq_ok.mp hcall
  obtain ⟨outcome, houtcome, rfl⟩ := map_eq_ok.mp hcall
  refine ⟨rfl, rfl, fun entry hentry => ?_⟩
  change entry ∈ outcome.views at hentry
  cases setter with
  | policy round context role subject =>
    obtain ⟨d, -, rfl⟩ := map_eq_ok.mp houtcome
    exact .inl hentry
  | member id made m =>
    obtain ⟨altered?, -, rfl⟩ := map_eq_ok.mp houtcome
    cases altered? with
    | none => exact .inl hentry
    | some altered =>
      rcases Table.mem_put hentry with hbefore | rfl
      · exact .inl hbefore
      · exact .inr h
  | value kind title =>
    obtain ⟨arguments, -, houtcome⟩ := bind_eq_ok.mp (mapError_eq_ok.mp houtcome)
    contradiction

/-- A setter that a callback reaches is made for what the callback sees. -/
theorem Call.Within.madeBefore {call : Call} {s : Session} (hcall : call.Within s)
    {context role : Value} {form : Policy.Form} {setter : Setter}
    (h : call.setter s context role form = .ok setter) : s.MadeBefore setter := by
  obtain ⟨reach, hreach, hfind⟩ := bind_eq_ok.mp h
  obtain ⟨name, hcontext, -, rfl⟩ := Call.find_ok hreach
  have hrole (found : Policy.Reached) : s.MadeBefore ((call.reach s name).setter found) := by
    cases found with
    | role label =>
      refine ⟨?_, ?_⟩
      · exact (Graph.text_labelOf _ name).symm ▸ hcall.contexts name hcontext
      · exact (Graph.text_labelOf _ call.subject).symm ▸ hcall.subject
    | value v => trivial
  cases form with
  | item =>
    obtain ⟨found, -, rfl⟩ := map_eq_ok.mp hfind
    exact hrole found
  | member =>
    obtain ⟨member, -, hfind⟩ := bind_eq_ok.mp hfind
    rw [Policy.Reach.byMember] at hfind
    split at hfind
    · obtain rfl := Except.ok.inj hfind
      trivial
    · obtain rfl := Except.ok.inj hfind
      split <;> trivial
    · obtain ⟨found, -, rfl⟩ := map_eq_ok.mp hfind
      exact hrole found
    · obtain ⟨found, -, rfl⟩ := map_eq_ok.mp hfind
      exact hrole found
    · obtain rfl := Except.ok.inj hfind
      rw [Policy.Reach.ofMember]
      split
      · trivial
      · trivial
      · exact hcall.visit

/-- A step alters only views of earlier visits. -/
theorem Step.views_run {s : Session} (h : s.Orderly) (step : Step) :
    ∀ entry ∈ (step.run s).2.views, entry.1.visit < s.visits := by
  obtain ⟨g, records, hmention⟩ := mentionAll_eq s step.mentions
  have horderly : (s.mentionAll step.mentions).2.Orderly := by
    rw [hmention]
    exact ⟨h.rounds, h.kept, h.views⟩
  have hvisits : (s.mentionAll step.mentions).2.visits = s.visits := by rw [hmention]
  rw [Step.run, ← hvisits]
  clear hmention hvisits
  generalize s.mentionAll step.mentions = mentioned at horderly ⊢
  obtain ⟨_ | ⟨⟩, next⟩ := mentioned
  · exact horderly.views
  · dsimp only at horderly ⊢
    intro entry hentry
    rcases (step.rest_perform next).2 with hsame | ⟨label, given, -, hcalled⟩
    · exact horderly.views entry (hsame ▸ hentry)
    · obtain ⟨setter, hsetter, hcalled⟩ := bind_eq_ok.mp hcalled
      obtain ⟨kept, hkept, rfl⟩ := Option.map_eq_some_iff.mp (lookup_of_aside hsetter)
      have hmade := horderly.kept kept (List.mem_of_find?_eq_some hkept)
      obtain ⟨-, -, hviews⟩ := callSetter_ok hmade hcalled
      exact (hviews entry hentry).elim (horderly.views entry) id

/-- A step keeps a session orderly. -/
theorem Orderly.step {s : Session} (hreached : s.world.Reached) (h : s.Orderly) (step : Step) :
    (step.run s).2.Orderly where
  rounds := by
    rw [Step.world_run]
    exact h.rounds.replay (step.declaredIn_ops hreached h)
  kept entry hentry := by
    rw [Step.kept_run] at hentry
    exact (h.kept entry hentry).later (fun _ hname => (LeadsTo.step step s).mem_names hname)
      (Nat.le_of_eq (step.visits_run s).symm)
  views entry hentry := by
    rw [step.visits_run]
    exact step.views_run h entry hentry

/-- A setter that a callback reaches keeps a session orderly. -/
theorem Orderly.set {s t : Session} (h : s.Orderly) {call : Call} (hcall : call.Within s)
    {context role : Value} {form : Policy.Form} {keep? : Option Value} {given : Given}
    (hset : call.set s context role form keep? given = .ok t) : t.Orderly := by
  obtain ⟨setter, hsetter, hnext⟩ := Call.set_ok hset
  have hmade := hcall.madeBefore hsetter
  cases keep? with
  | some label =>
    dsimp only at hnext
    rw [hnext]
    refine ⟨h.rounds, fun entry hentry => ?_, h.views⟩
    rcases Value.mem_putEntry hentry with hbefore | ⟨hnew, -⟩
    · exact h.kept entry hbefore
    · exact hnew ▸ hmade
  | none =>
    have hops : call.setOps s context role form none given = setterOps setter given :=
      Call.setOps_of_setter hsetter given
    have hworld := (call.runs_setOps s context role form none given).eq_replay
    rw [hset, hops] at hworld
    change t.world = _ at hworld
    obtain ⟨hkept, hvisits, hviews⟩ := callSetter_ok hmade hnext
    refine ⟨?_, fun entry hentry => ?_, fun entry hentry => ?_⟩
    · rw [hworld]
      exact h.rounds.replay (declaredIn_setterOps hmade given)
    · rw [hkept] at hentry
      exact (h.kept entry hentry).later (fun _ hname => (LeadsTo.set hcall hset).mem_names hname)
        (Nat.le_of_eq hvisits.symm)
    · rw [hvisits]
      exact (hviews entry hentry).elim (h.views entry) id

/-- What an orderly session leads to is orderly. -/
theorem LeadsTo.orderly {s t : Session} (h : LeadsTo s t) (hreached : s.world.Reached)
    (hs : s.Orderly) : t.Orderly := by
  have hlater {s t : Session} (h : LeadsTo s t) (hreached : s.world.Reached) : t.world.Reached := by
    obtain ⟨ops, hops⟩ := hreached
    obtain ⟨later, hlater⟩ := h.runs
    exact ⟨_, hops.append hlater⟩
  have hstaged {s : Session} (hreached : s.world.Reached) (hs : s.Orderly) :
      let staged := s.withCompiler s.engine.compiler.stage.1
      staged.world.Reached ∧ staged.Orderly := by
    refine ⟨hlater (.staged (.refl _)) hreached, ?_, hs.kept, hs.views⟩
    have hnone (d : Declaration) (hd : Operation.stage.declared? = some d) :
        DeclaredIn s.engine.graph d := absurd hd.symm (Option.some_ne_none d)
    exact hs.rounds.apply hnone
  induction h with
  | refl s => exact hs
  | trans h _ ih ih' => exact ih' (hlater h hreached) (ih hreached hs)
  | step step s => exact hs.step hreached step
  | visit s =>
    exact ⟨hs.rounds, fun entry hentry => (hs.kept entry hentry).later (fun _ h => h)
      (Nat.le_succ _), fun entry hentry => Nat.lt_succ_of_lt (hs.views entry hentry)⟩
  | set hcall hset => exact hs.set hcall hset
  | staged _ ih =>
    obtain ⟨hreached, hs⟩ := hstaged hreached hs
    exact ih hreached hs
  | configured _ ih =>
    obtain ⟨hreached, hs⟩ := hstaged hreached hs
    have horderly := ih hreached hs
    exact ⟨horderly.rounds, horderly.kept, horderly.views⟩

/-- A moment of a session: what a session leads to that is new, and in which nothing was put aside and
no view altered. -/
def Occurs (s : Session) : Prop :=
  ∃ new : Session, new.world = {} ∧ new.kept = [] ∧ new.views = [] ∧ LeadsTo new s

namespace Occurs

variable {s : Session}

/-- What a moment leads to is one as well. -/
theorem later (h : s.Occurs) {t : Session} (ht : LeadsTo s t) : t.Occurs := by
  obtain ⟨new, hworld, hkept, hviews, hs⟩ := h
  exact ⟨new, hworld, hkept, hviews, hs.trans ht⟩

/-- After any commands of a new session there is a moment. -/
theorem ofCommands (commands : List Command) : (({} : Session).after commands).Occurs :=
  ⟨{}, rfl, rfl, rfl, leadsTo_after {} commands⟩

theorem reached (h : s.Occurs) : s.world.Reached := by
  obtain ⟨new, hworld, -, -, hs⟩ := h
  obtain ⟨ops, hops⟩ := hs.runs
  exact ⟨ops, hworld ▸ hops⟩

/-- Every moment is orderly. -/
theorem orderly (h : s.Occurs) : s.Orderly := by
  obtain ⟨new, hworld, hkept, hviews, hs⟩ := h
  refine hs.orderly (hworld ▸ ⟨[], .nil _⟩) ⟨?_, ?_, ?_⟩
  · rw [hworld]
    intro id
    refine ⟨[], ?_, fun _ hd => absurd hd List.not_mem_nil⟩
    cases id <;> rfl
  · rw [hkept]
    exact fun _ hentry => absurd hentry List.not_mem_nil
  · rw [hviews]
    exact fun _ hentry => absurd hentry List.not_mem_nil

end Occurs

end AccessMatrix.Session
