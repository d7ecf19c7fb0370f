import AccessMatrix.Proofs.Evaluation.Rejection
import AccessMatrix.Proofs.Policy.Redeclarations
import AccessMatrix.Proofs.Session.Moments
import AccessMatrix.Proofs.Session.Publication
import AccessMatrix.Proofs.Session.Recording

/-!
# What a run reports

A warning of a redeclaration is made when a declaration is recorded in a round that holds its place,
and nothing else makes one. So the ledger of a run tells its warnings, in their order, and those of one
round are the ones of the declarations that were recorded there.
-/

namespace AccessMatrix.Session

open Outcome
open Policy (Declaration Redeclaration Round RoundId Setter)

/-- A record that warns of a redeclaration. -/
def isRedeclaration (record : Log.Record) : Bool :=
  record.level = .warning && "Access policy ".toList.isPrefixOf record.message.toList

/-- The records that warn of redeclarations. -/
def redeclarations (records : List Log.Record) : List Log.Record := records.filter isRedeclaration

/-- The warning of a redeclaration. -/
def redeclarationRecord (engine : Value) (d : Declaration) : Log.Record :=
  .ofEngine .warning engine d.redeclaration.message

theorem redeclarations_append (records later : List Log.Record) :
    redeclarations (records ++ later) = redeclarations records ++ redeclarations later :=
  List.filter_append ..

theorem isRedeclaration_redeclarationRecord (engine : Value) (d : Declaration) :
    isRedeclaration (redeclarationRecord engine d) = true := by
  have hprefix : "Access policy ".toList <+: d.redeclaration.message.toList := by
    unfold Redeclaration.message
    simp only [String.toList_append, List.append_assoc]
    exact List.prefix_append _ _
  simpa [isRedeclaration, redeclarationRecord, Log.Record.ofEngine] using hprefix

/-- A rejected input makes another warning. -/
theorem isRedeclaration_rejection (e : Engine) (subject : Value) (error : Error) :
    isRedeclaration (Evaluation.rejection e subject error) = false := by
  have hstart : "Rejected".toList <+: (Evaluation.rejection e subject error).message.toList := by
    unfold Evaluation.rejection Log.Record.ofEngine
    simp only [String.toList_append, List.append_assoc]
    exact List.prefix_append_of_prefix (by decide)
  refine Bool.eq_false_iff.mpr fun hwarns => ?_
  have hother : "Access policy ".toList <+: (Evaluation.rejection e subject error).message.toList :=
    List.isPrefixOf_iff_prefix.mp (Bool.and_eq_true_iff.mp hwarns).2
  -- a message has one beginning only
  rcases List.prefix_or_prefix_of_prefix hstart hother with hbegins | hbegins <;>
    revert hbegins <;> decide

theorem redeclarations_query (e : Engine) (memberships subject : Value) :
    redeclarations (Evaluation.query e memberships subject).records = [] := by
  rw [Evaluation.query]
  split
  · rfl
  · exact List.filter_eq_nil_iff.mpr (by simp [isRedeclaration_rejection])

theorem redeclarations_explain (e : Engine) (memberships action subject : Value) :
    redeclarations (Evaluation.explain e memberships action subject).records = [] := by
  have hquery := redeclarations_query e memberships subject
  rw [Evaluation.explain]
  split
  · rw [redeclarations_append, hquery, List.nil_append]
    split <;> rfl
  · exact hquery

theorem redeclarations_askResolution (e : Engine) (memberships subject : Value) :
    redeclarations (Evaluation.askResolution e memberships subject).2 = [] := by
  have hquery := redeclarations_query e memberships subject
  rw [Evaluation.askResolution]
  split
  · exact hquery
  · split
    · exact hquery
    · rfl

theorem redeclarations_askDecision (e : Engine) (memberships action subject : Value) :
    redeclarations (Evaluation.askDecision e memberships action subject).2 = [] := by
  have hresolution := redeclarations_askResolution e memberships subject
  have hexplain := redeclarations_explain e memberships action subject
  rw [Evaluation.askDecision]
  split
  · rename_i hasked
    rwa [hasked] at hresolution
  · split <;> exact hexplain

theorem redeclarations_askAllowed (e : Engine) (memberships action subject : Value) :
    redeclarations (Evaluation.askAllowed e memberships action subject).2 = [] :=
  redeclarations_askDecision e memberships action subject

theorem redeclarations_askPolicies (e : Engine) (memberships subject : Value) :
    redeclarations (Evaluation.askPolicies e memberships subject).2 = [] := by
  have hresolution := redeclarations_askResolution e memberships subject
  rw [Evaluation.askPolicies]
  split
  · rename_i hasked
    rwa [hasked] at hresolution
  · exact redeclarations_query e memberships subject

/-- A session goes on without a warning of a redeclaration. -/
structure Quiet (s t : Session) : Prop where
  name : t.engine.name = s.engine.name
  records : redeclarations t.records = redeclarations s.records

theorem Quiet.refl (s : Session) : Quiet s s := ⟨rfl, rfl⟩

theorem Quiet.trans {s t u : Session} (h : Quiet s t) (h' : Quiet t u) : Quiet s u :=
  ⟨h'.name.trans h.name, h'.records.trans h.records⟩

/-- Records that warn of no redeclaration keep a session quiet. -/
theorem Quiet.log {s t : Session} (h : Quiet s t) {records : List Log.Record}
    (hrecords : redeclarations records = []) : Quiet s (t.log records) where
  name := h.name
  records := by
    change redeclarations (t.records ++ records) = _
    rw [redeclarations_append, hrecords, List.append_nil, h.records]

/-- A record that is no warning keeps a session quiet. -/
theorem Quiet.note {s t : Session} (h : Quiet s t) (record : Log.Record)
    (hlevel : record.level ≠ .warning) : Quiet s (t.log [record]) :=
  h.log (List.filter_eq_nil_iff.mpr (by simp [isRedeclaration, hlevel]))

/-- Looking up references makes no warning. -/
theorem quiet_mentionAll (s : Session) (refs : List Ref) : Quiet s (s.mentionAll refs).2 := by
  induction refs generalizing s with
  | nil => exact .refl s
  | cons ref rest ih =>
    rw [mentionAll]
    split
    · exact .refl s
    · rename_i next hnext
      refine Quiet.trans ?_ (ih next)
      cases ref with
      | own name =>
        rw [mention] at hnext
        split at hnext
        · obtain rfl := Except.ok.inj hnext
          exact .refl s
        · contradiction
      | foreign name =>
        rw [mention] at hnext
        split at hnext
        · obtain rfl := Except.ok.inj hnext
          exact .refl s
        · obtain ⟨⟨g, e⟩, -, rfl⟩ := map_eq_ok.mp hnext
          have hnext : Quiet s { s with elsewhere := g } := ⟨rfl, rfl⟩
          exact hnext.note (registered g e) (show Log.Level.debug ≠ .warning by decide)
      | value v =>
        obtain rfl := Except.ok.inj hnext
        exact .refl s

/-- A declaration that is recorded makes a warning if its round holds its place. -/
theorem redeclarations_recordIn {s : Session} {id : RoundId} {ds : List Declaration}
    (h : s.engine.compiler.round id = Round.ofDeclarations ds) (d : Declaration) :
    redeclarations (s.recordIn id d).records = redeclarations s.records ++
      if d.place ∈ ds.map Declaration.place then [redeclarationRecord s.engine.name d] else [] := by
  have hrecords : (s.recordIn id d).records = s.records ++
      ((s.engine.compiler.round id).add d).2.toList.map fun warning =>
        .ofEngine .warning s.engine.name warning.message := rfl
  rw [hrecords, redeclarations_append, h, Round.add_ofDeclarations_snd]
  split
  · exact congrArg (_ ++ ·)
      (List.filter_eq_self.mpr (List.forall_mem_singleton.mpr
        (isRedeclaration_redeclarationRecord s.engine.name d)))
  · rfl

/-- A question makes no warning of a redeclaration if its records hold none. -/
theorem Quiet.asked {α : Type} (s : Session) {asked : Evaluation.Asked α}
    (h : redeclarations asked.2 = []) (reply : α → Reply) : Quiet s (s.asked asked reply).2 :=
  (Quiet.refl s).log h

/-- A step that neither declares nor calls a kept setter makes no warning of a redeclaration. -/
theorem Step.quiet_perform {step : Step} (hdeclare : ∀ r, step ≠ .declare r)
    (hcall : ∀ label given, step ≠ .callKept label given) (s : Session) :
    Quiet s (step.perform s).2 := by
  cases step with
  | register r =>
    refine of_whole (.refl s) fun h => ?_
    obtain ⟨⟨e, registered⟩, hregister, h⟩ := map_eq_ok.mp h
    obtain ⟨⟨g, e⟩, -, hregister⟩ := map_eq_ok.mp hregister
    cases hregister
    cases h
    have hnext : Quiet s (s.withGraph g) := ⟨rfl, rfl⟩
    exact hnext.note (registered g e) (show Log.Level.debug ≠ .warning by decide)
  | declare r => exact absurd rfl (hdeclare r)
  | callKept label given => exact absurd rfl (hcall label given)
  | assignParents _ _ | role _ _ | paths _ | relationships _ =>
    refine of_whole (.refl s) fun h => ?_
    obtain ⟨e, -, h⟩ := bind_eq_ok.mp h
    obtain ⟨found, -, h⟩ := bind_eq_ok.mp h
    cases h
    exact ⟨rfl, rfl⟩
  | allowanceFor _ _ | cell _ _ _ _ =>
    refine of_whole (.refl s) fun h => ?_
    obtain ⟨found, -, h⟩ := bind_eq_ok.mp h
    cases h
    exact .refl s
  | registerAgain _ | entity _ | require _ | contains _ | compareRoles _ _ | hold _ | compiled _
    | declared _ _ _ _ | hierarchy =>
    refine of_whole (.refl s) fun h => ?_
    obtain ⟨answer, -, h⟩ := map_eq_ok.mp h
    cases h
    exact ⟨rfl, rfl⟩
  | build =>
    have hnext : Quiet s (s.withCompiler (s.engine.compiler.build s.engine.graph)) := ⟨rfl, rfl⟩
    exact hnext.note (.ofEngine .info _ _) (show Log.Level.info ≠ .warning by decide)
  | isAllowed memberships action subject => exact .asked s (redeclarations_askAllowed _ _ _ _) _
  | explain memberships action subject => exact .asked s (redeclarations_askDecision _ _ _ _) _
  | actorPolicies memberships subject => exact .asked s (redeclarations_askPolicies _ _ _) _
  | resolve memberships subject => exact .asked s (redeclarations_askResolution _ _ _) _
  | clear | graph | adaptMemberships _ | adaptSubjects _ | refused _ _ => exact ⟨rfl, rfl⟩

/-- A setter that is called records what it declares in its round, or declares nothing and makes no
warning. -/
theorem callSetter_cases {s next : Session} {setter : Setter} {given : Given}
    (h : (do let (value?, named) ← given
             s.callSetter setter value? named) = .ok next) :
    (setterOps setter given = [] ∧ Quiet s next) ∨
      ∃ id d, roundOf? setter = some id ∧ setterOps setter given = [.call id d] ∧
        next = s.recordIn id d := by
  obtain ⟨⟨value?, named⟩, hgiven, h⟩ := bind_eq_ok.mp h
  dsimp only at h
  cases setter with
  | policy id context role subject =>
    rw [callSetter_policy] at h
    obtain ⟨d, hd, rfl⟩ := map_eq_ok.mp h
    refine .inr ⟨id, d, rfl, ?_, rfl⟩
    rw [hgiven, setterOps, hd]
  | member id made m =>
    obtain ⟨outcome, houtcome, rfl⟩ := map_eq_ok.mp h
    obtain ⟨view, -, rfl⟩ := map_eq_ok.mp houtcome
    exact .inl ⟨rfl, rfl, congrArg redeclarations (List.append_nil s.records)⟩
  | value kind title =>
    obtain ⟨outcome, houtcome, -⟩ := map_eq_ok.mp h
    obtain ⟨made, -, hthrown⟩ := bind_eq_ok.mp (mapError_eq_ok.mp houtcome)
    contradiction

/-- A setter's call that fails declares nothing. -/
theorem setterOps_of_error {s : Session} {setter : Setter} {given : Given} {e : Error}
    (h : (do let (value?, named) ← given
             s.callSetter setter value? named) = .error e) : setterOps setter given = [] := by
  cases setter with
  | policy id context role subject =>
    obtain hgiven | ⟨⟨value?, named⟩, hgiven, h⟩ := bind_eq_error.mp h
    · rw [hgiven, setterOps]
      simp
    · dsimp only at h
      rw [callSetter_policy] at h
      rw [hgiven, setterOps, map_eq_error.mp h]
  | member id made m => rfl
  | value kind title => rfl

namespace Ledger

variable {l : Ledger} {event : Event} {id : RoundId} {d : Declaration}

/-- The round and the declaration that an event records. -/
def recordedAt (l : Ledger) : Event → Option (RoundId × Declaration)
  | .declare d => some (l.current, d)
  | .set d => l.innermost?.map (·, d)
  | .setKept label d => (l.keptRound? label).map (·, d)
  | _ => none

/-- What is reported at an event: a declaration whose place its round holds. -/
def reportedAt (l : Ledger) (event : Event) : List (RoundId × Declaration) :=
  ((l.recordedAt event).filter fun entry =>
    entry.2.place ∈ (l.recorded entry.1).map Declaration.place).toList

/-- What is reported in a story. -/
def reported (l : Ledger) : List Moment → List (RoundId × Declaration)
  | [] => []
  | m :: later => l.reportedAt m.event ++ (l.step m.event).reported later

theorem reported_append (l : Ledger) (story later : List Moment) :
    l.reported (story ++ later) = l.reported story ++ (l.after story).reported later := by
  induction story generalizing l with
  | nil => rfl
  | cons m rest ih =>
    rw [List.cons_append, reported, ih, reported, List.append_assoc]
    rfl

theorem reportedAt_of_none (h : l.recordedAt event = none) : l.reportedAt event = [] := by
  rw [reportedAt, h]
  rfl

theorem reportedAt_of_some (h : l.recordedAt event = some (id, d)) :
    l.reportedAt event =
      if d.place ∈ (l.recorded id).map Declaration.place then [(id, d)] else [] := by
  rw [reportedAt, h, Option.filter_some]
  split <;> simp_all

/-- An event that records a declaration does nothing else. -/
theorem step_of_recordedAt (h : l.recordedAt event = some (id, d)) :
    l.step event = l.record d (some id) := by
  cases event with
  | declare declared =>
    obtain ⟨rfl, rfl⟩ := Prod.mk.inj (Option.some.inj h)
    rfl
  | set declared =>
    obtain ⟨round, hround, hentry⟩ := Option.map_eq_some_iff.mp h
    obtain ⟨rfl, rfl⟩ := Prod.mk.inj hentry
    rw [step, hround]
  | setKept label declared =>
    obtain ⟨round, hround, hentry⟩ := Option.map_eq_some_iff.mp h
    obtain ⟨rfl, rfl⟩ := Prod.mk.inj hentry
    rw [step, hround]
  | _ => contradiction

/-- An event that records no declaration leaves what was recorded. -/
theorem recorded_of_recordedAt_eq_none (h : l.recordedAt event = none) (id : RoundId) :
    (l.step event).recorded id = l.recorded id := by
  cases event with
  | declare declared => contradiction
  | set declared => rw [step, Option.map_eq_none_iff.mp h, record]
  | setKept label declared => rw [step, Option.map_eq_none_iff.mp h, record]
  | clear => exact recorded_begin l _ _ id
  | begin configures =>
    cases configures with
    | true => exact recorded_begin l _ _ id
    | false => rfl
  | finish ended =>
    rcases l.step_finish_cases ended with ⟨-, hstep⟩ | ⟨callback, rest, -, hstep⟩
    · rw [hstep]
    · rw [hstep]
      rfl
  | keep label declares | build | other => rfl

/-- Declarations are recorded in rounds that were begun. -/
theorem Begun.recordedAt (h : l.Begun) (hat : l.recordedAt event = some (id, d)) :
    id < l.rounds.length := by
  cases event with
  | declare declared =>
    obtain ⟨rfl, -⟩ := Prod.mk.inj (Option.some.inj hat)
    exact h.current
  | set declared =>
    obtain ⟨round, hround, hentry⟩ := Option.map_eq_some_iff.mp hat
    obtain ⟨rfl, -⟩ := Prod.mk.inj hentry
    exact h.innermost hround
  | setKept label declared =>
    obtain ⟨round, hround, hentry⟩ := Option.map_eq_some_iff.mp hat
    obtain ⟨rfl, -⟩ := Prod.mk.inj hentry
    exact h.keptRound hround
  | _ => contradiction

/-- The reports of one round. -/
def reportsOn (id : RoundId) (reported : List (RoundId × Declaration)) : List Declaration :=
  (reported.filter fun entry => entry.1 = id).map Prod.snd

/-- What a story reports of a round are the declarations that it repeats there. -/
theorem repeated_recorded (h : l.Begun) (story : List Moment) (id : RoundId) :
    Policy.repeated ((l.after story).recorded id) =
      Policy.repeated (l.recorded id) ++ reportsOn id (l.reported story) := by
  induction story generalizing l with
  | nil => exact (List.append_nil _).symm
  | cons m rest ih =>
    have hafter : l.after (m :: rest) = (l.step m.event).after rest := rfl
    have hstep : Policy.repeated ((l.step m.event).recorded id) =
        Policy.repeated (l.recorded id) ++ reportsOn id (l.reportedAt m.event) := by
      cases hat : l.recordedAt m.event with
      | none =>
        rw [recorded_of_recordedAt_eq_none hat, reportedAt_of_none hat]
        exact (List.append_nil _).symm
      | some entry =>
        obtain ⟨other, d⟩ := entry
        rw [step_of_recordedAt hat, recorded_record (h.recordedAt hat), reportedAt_of_some hat]
        by_cases hid : other = id
        · subst hid
          rw [if_pos rfl, Policy.repeated_concat]
          split <;> simp [reportsOn]
        · rw [if_neg hid]
          split <;> simp [reportsOn, hid]
    rw [hafter, ih (h.step m.event), hstep, reported, List.append_assoc]
    simp [reportsOn]

end Ledger

/-- A story that begins in a session and ends in another one makes the warnings that the ledger
reports. -/
structure Reports (l : Ledger) (s : Session) (story : List Moment) (t : Session) : Prop where
  name : t.engine.name = s.engine.name
  records : redeclarations t.records = redeclarations s.records ++
    (l.reported story).map fun entry => redeclarationRecord s.engine.name entry.2

namespace Reports

variable {l : Ledger} {s t : Session}

theorem nil (h : Quiet s t) : Reports l s [] t := ⟨h.name, by rw [h.records]; simp [Ledger.reported]⟩

theorem append {story later : List Moment} {u : Session} (h : Reports l s story t)
    (h' : Reports (l.after story) t later u) : Reports l s (story ++ later) u where
  name := h'.name.trans h.name
  records := by
    rw [h'.records, h.records, h.name, Ledger.reported_append, List.map_append, List.append_assoc]

/-- A moment that records no declaration reports nothing. -/
theorem quiet (h : Quiet s t) {event : Event} (hat : l.recordedAt event = none) (w : World) :
    Reports l s [⟨event, w⟩] t where
  name := h.name
  records := by
    rw [h.records, Ledger.reported, Ledger.reportedAt_of_none hat]
    exact (List.append_nil _).symm

/-- A moment that records a declaration reports it if it has to. -/
theorem record (h : l.Agrees s) {event : Event} {id : RoundId} {d : Declaration}
    (hat : l.recordedAt event = some (id, d)) (w : World) :
    Reports l s [⟨event, w⟩] (s.recordIn id d) where
  name := rfl
  records := by
    rw [redeclarations_recordIn (h.tells.rounds id), Ledger.reported,
      Ledger.reportedAt_of_some hat]
    split <;> rfl

/-- What happens before without a warning makes no difference. -/
theorem of_quiet {story : List Moment} {u : Session} (h : Quiet s t) (h' : Reports l t story u) :
    Reports l s story u :=
  (nil h).append h'

/-- A callback makes the warnings that are made in it. -/
theorem callback {start last : Session} {inner : List Moment} {configures ended : Bool}
    (hstart : Quiet s start) (hinner : Reports (l.step (.begin configures)) start inner last)
    (hend : Quiet last t) (w w' : World) :
    Reports l s (⟨.begin configures, w⟩ :: inner ++ [⟨.finish ended, w'⟩]) t := by
  have hbegin : Reports l s [⟨.begin configures, w⟩] start := quiet hstart rfl w
  exact (hbegin.append hinner).append (quiet hend rfl w')

end Reports

end AccessMatrix.Session
