import AccessMatrix.Proofs.Entries
import AccessMatrix.Proofs.Session.History

/-!
# What a run does not depend on

No command looks at what rounds hold, at what was published or put aside of it, at settings or at the log.
Two sessions that differ in nothing else do the same operations, fail at the same place for the same
reason, and go on to differ in nothing else. That they fail for the same reason matters, because a
callback may catch a failure and go on by what it is.
-/

namespace AccessMatrix.Session

open Policy (Compiler RoundId Setter)

/-- Two sessions differ at most in what their rounds hold, in the snapshots published and put aside,
in settings, and in the log. -/
structure Alike (s t : Session) : Prop where
  graph : t.engine.graph = s.engine.graph
  memberships : t.engine.membershipAdapter? = s.engine.membershipAdapter?
  subjects : t.engine.subjectAdapter? = s.engine.subjectAdapter?
  current : t.engine.compiler.current = s.engine.compiler.current
  count : t.engine.compiler.rounds.length = s.engine.compiler.rounds.length
  visits : t.visits = s.visits
  views : t.views = s.views
  kept : t.kept = s.kept
  labels : t.held.map Prod.fst = s.held.map Prod.fst
  elsewhere : t.elsewhere = s.elsewhere

/-- How a result ends: well, whatever the answer is, or with a failure. -/
def ended {α : Type} (result : Except Error α) : Except Error Unit := result.map fun _ => ()

theorem ended_eq_error {α : Type} {result : Except Error α} {e : Error} :
    ended result = .error e ↔ result = .error e := by
  cases result <;> simp [ended, Except.map]

theorem isOk_ended {α : Type} (result : Except Error α) : (ended result).isOk = result.isOk := by
  cases result <;> rfl

/-- Two results fail both for the same reason, or lead to sessions that are alike. -/
def AlikeResults {α : Type} (session : α → Session) : Except Error α → Except Error α → Prop
  | .ok a, .ok b => Alike (session a) (session b)
  | .error e, .error e' => e' = e
  | _, _ => False

/-- Two runs end in the same way and leave sessions that are alike. -/
structure AlikeRuns {α : Type} (r r' : Except Error α × Session) : Prop where
  ended : ended r'.1 = ended r.1
  session : Alike r.2 r'.2

/-- Two visits end in the same way and leave sessions that are alike. -/
def AlikeVisits {α : Type} (r r' : Except Error α × Trace × Session) : Prop :=
  AlikeRuns (r.1, r.2.2) (r'.1, r'.2.2)

namespace Alike

variable {s t : Session}

theorem log (h : Alike s t) (records records' : List Log.Record) :
    Alike (s.log records) (t.log records') := { h with }

theorem withGraph (h : Alike s t) (g : Graph) : Alike (s.withGraph g) (t.withGraph g) :=
  { h with graph := rfl }

/-- Recording in the same round keeps sessions alike, whatever the round holds. -/
theorem record (h : Alike s t) (round : RoundId) (d : Policy.Declaration) :
    Alike (s.withCompiler (s.engine.compiler.record round d).1)
      (t.withCompiler (t.engine.compiler.record round d).1) :=
  { h with
    current := h.current
    count := by simpa [Compiler.record, Session.withCompiler] using h.count }

theorem stage (h : Alike s t) :
    Alike (s.withCompiler s.engine.compiler.stage.1) (t.withCompiler t.engine.compiler.stage.1) :=
  { h with
    current := h.current
    count := by simpa [Compiler.stage, Session.withCompiler] using h.count }

theorem clear (h : Alike s t) :
    Alike (s.withCompiler s.engine.compiler.clear) (t.withCompiler t.engine.compiler.clear) :=
  { h with
    current := h.count
    count := by simpa [Compiler.clear, Compiler.stage, Session.withCompiler] using h.count }

theorem build (h : Alike s t) (g g' : Graph) :
    Alike (s.withCompiler (s.engine.compiler.build g)) (t.withCompiler (t.engine.compiler.build g')) :=
  { h with }

theorem adopt (h : Alike s t) (g g' : Graph) (round : RoundId) :
    Alike (s.withCompiler (s.engine.compiler.adopt g round))
      (t.withCompiler (t.engine.compiler.adopt g' round)) :=
  { h with current := rfl }

/-- Publishing logs what was published and changes nothing else. -/
theorem publish {c c' : Compiler} (h : Alike (s.withCompiler c) (t.withCompiler c')) :
    Alike (s.publish c) (t.publish c') :=
  h.log _ _

end Alike

/-- Runs that both end well are alike, whatever they answer. -/
theorem alikeRuns_ok {α : Type} {a b : α} {s t : Session} (h : Alike s t) :
    AlikeRuns (.ok a, s) (.ok b, t) :=
  ⟨rfl, h⟩

/-- Visits that both end well are alike, whatever they answer. -/
theorem alikeVisits_ok {α : Type} {a b : α} {trace trace' : Trace} {s t : Session} (h : Alike s t) :
    AlikeVisits (.ok a, trace, s) (.ok b, trace', t) :=
  alikeRuns_ok h

/-- Two runs that are alike end well both, or fail both for the same reason. -/
theorem AlikeRuns.cases {α : Type} {r r' : Except Error α × Session} (h : AlikeRuns r r') :
    (∃ a b s t, r = (.ok a, s) ∧ r' = (.ok b, t) ∧ Alike s t) ∨
      ∃ e s t, r = (.error e, s) ∧ r' = (.error e, t) ∧ Alike s t := by
  obtain ⟨result, s⟩ := r
  obtain ⟨result', t⟩ := r'
  obtain ⟨hended, hsession⟩ := h
  cases result with
  | error e =>
    cases result' with
    | error e' => exact .inr ⟨e, s, t, rfl, by rw [Except.error.inj hended], hsession⟩
    | ok b => contradiction
  | ok a =>
    cases result' with
    | error e' => contradiction
    | ok b => exact .inl ⟨a, b, s, t, rfl, rfl, hsession⟩

/-- Two visits that are alike end well both, or fail both for the same reason. -/
theorem AlikeVisits.cases {α : Type} {r r' : Except Error α × Trace × Session}
    (h : AlikeVisits r r') :
    (∃ a b trace trace' s t, r = (.ok a, trace, s) ∧ r' = (.ok b, trace', t) ∧ Alike s t) ∨
      ∃ e trace trace' s t, r = (.error e, trace, s) ∧ r' = (.error e, trace', t) ∧ Alike s t := by
  obtain ⟨result, trace, s⟩ := r
  obtain ⟨result', trace', t⟩ := r'
  obtain ⟨a, b, _, _, hr, hr', halike⟩ | ⟨e, _, _, hr, hr', halike⟩ := AlikeRuns.cases h
  · obtain ⟨rfl, rfl⟩ := Prod.mk.inj hr
    obtain ⟨rfl, rfl⟩ := Prod.mk.inj hr'
    exact .inl ⟨a, b, trace, trace', _, _, rfl, rfl, halike⟩
  · obtain ⟨rfl, rfl⟩ := Prod.mk.inj hr
    obtain ⟨rfl, rfl⟩ := Prod.mk.inj hr'
    exact .inr ⟨e, trace, trace', _, _, rfl, rfl, halike⟩

/-- Results that are alike make runs that are, if they are taken as a whole. -/
theorem AlikeResults.whole {result result' : Except Error (Reply × Session)} {s t : Session}
    (h : AlikeResults Prod.snd result result') (hsession : Alike s t) :
    AlikeRuns (s.whole result) (t.whole result') := by
  cases result with
  | error e =>
    cases result' with
    | error e' =>
      obtain rfl : e' = e := h
      exact ⟨rfl, hsession⟩
    | ok b => contradiction
  | ok a =>
    cases result' with
    | error e' => contradiction
    | ok b => exact ⟨rfl, h⟩

/-- Results that rest on one result are alike if they are wherever that one succeeds. -/
theorem alikeResults_bind {α β : Type} {session : β → Session} (result : Except Error α)
    {next next' : α → Except Error β} (h : ∀ a, AlikeResults session (next a) (next' a)) :
    AlikeResults session (result >>= next) (result >>= next') := by
  cases result with
  | error e => rfl
  | ok a => exact h a

theorem alikeResults_map {α β : Type} {session : β → Session} (result : Except Error α)
    {next next' : α → β} (h : ∀ a, Alike (session (next a)) (session (next' a))) :
    AlikeResults session (result.map next) (result.map next') := by
  cases result with
  | error e => rfl
  | ok a => exact h a

/-- Answering keeps results alike. -/
theorem AlikeResults.map {α β : Type} {session : α → Session} {session' : β → Session}
    {result result' : Except Error α} (h : AlikeResults session result result') {next : α → β}
    (hnext : ∀ a, session' (next a) = session a) :
    AlikeResults session' (result.map next) (result'.map next) := by
  cases result <;> cases result' <;> first | exact h | skip
  rename_i a b
  change Alike (session' (next a)) (session' (next b))
  rw [hnext, hnext]
  exact h

namespace Alike

variable {s t : Session}

theorem mention (h : Alike s t) (ref : Ref) : AlikeResults id (s.mention ref) (t.mention ref) := by
  cases ref with
  | own name =>
    simp only [Session.mention, h.graph]
    cases s.engine.graph.find? name with
    | none => rfl
    | some e => exact h
  | foreign name =>
    simp only [Session.mention, h.elsewhere]
    split
    · exact h
    · exact alikeResults_map _ fun _ => { h with elsewhere := rfl }
  | value v => exact h

/-- References are looked up alike. -/
theorem mentionAll (h : Alike s t) (refs : List Ref) :
    AlikeRuns (s.mentionAll refs) (t.mentionAll refs) := by
  induction refs generalizing s t with
  | nil => exact ⟨rfl, h⟩
  | cons ref rest ih =>
    have hmention := h.mention ref
    rw [Session.mentionAll, Session.mentionAll]
    generalize s.mention ref = result, t.mention ref = result' at hmention ⊢
    cases result <;> cases result'
    · exact ⟨congrArg Except.error hmention, h⟩
    · contradiction
    · contradiction
    · exact ih hmention

/-- A setter that is called in two sessions which are alike fails in both or leaves them alike. -/
theorem callSetter (h : Alike s t) (setter : Setter) (given : Given) :
    AlikeResults id
      (do let (value?, named) ← given
          s.callSetter setter value? named)
      (do let (value?, named) ← given
          t.callSetter setter value? named) := by
  refine alikeResults_bind given fun arguments => ?_
  obtain ⟨value?, named⟩ := arguments
  cases setter with
  | policy round context role subject =>
    simp only [Session.callSetter, Setter.call]
    cases Setter.declaration context role subject value? named with
    | error e => rfl
    | ok d => exact ((h.record round d).log _ _)
  | member id made m =>
    simp only [Session.callSetter, Setter.call, h.views]
    cases Error.ofMisuse (m.call ((s.views.get? id).getD made) value? named) with
    | error e => rfl
    | ok altered? => exact { h with views := rfl }
  | value kind title =>
    simp only [Session.callSetter, Setter.call]
    cases Policy.namedEntries title named <;> rfl

end Alike

namespace Alike

variable {s t : Session}

/-- A label is found or missed alike among what was put aside. -/
theorem snapshot (h : Alike s t) (held : Option Value) :
    ended (t.snapshot held) = ended (s.snapshot held) := by
  cases held with
  | none => rfl
  | some label =>
    have hlookup : (Value.lookup s.held label).isSome = (Value.lookup t.held label).isSome := by
      rw [Value.isSome_lookup, Value.isSome_lookup, h.labels]
    simp only [Session.snapshot, aside]
    cases Error.ofMisuse label.checkKey with
    | error e => rfl
    | ok _ =>
      cases hs : Value.lookup s.held label <;> cases ht : Value.lookup t.held label
      · rfl
      · simp [hs, ht] at hlookup
      · simp [hs, ht] at hlookup
      · rfl

theorem readInput (h : Alike s t) (memberships subject : Value) :
    Evaluation.readInput t.engine memberships subject =
      Evaluation.readInput s.engine memberships subject := by
  have hread : Evaluation.readMembership t.engine = Evaluation.readMembership s.engine := by
    funext raw
    rw [Evaluation.readMembership, h.memberships]
    rfl
  simp only [Evaluation.readInput, hread, Evaluation.readSubject, h.subjects]

/-- Asked for its resolution, an input is resolved in both of two sessions that are alike or rejected in
both, and if that cannot be written, it is so for the same reason. -/
theorem askResolution_cases (h : Alike s t) (memberships subject : Value) :
    (∃ misuse, Evaluation.askResolution s.engine memberships subject = (.error misuse, []) ∧
      Evaluation.askResolution t.engine memberships subject = (.error misuse, [])) ∨
    ∃ r r' records records', r'.isSome = r.isSome ∧
      Evaluation.askResolution s.engine memberships subject = (.ok r, records) ∧
      Evaluation.askResolution t.engine memberships subject = (.ok r', records') := by
  simp only [Evaluation.askResolution, Evaluation.query, h.readInput]
  cases Evaluation.readInput s.engine memberships subject with
  | ok input =>
    exact .inr ⟨some (Evaluation.resolve s.engine.graph input),
      some (Evaluation.resolve t.engine.graph input), [], [], rfl, rfl, rfl⟩
  | error error =>
    dsimp only
    cases Evaluation.writeRejection subject error with
    | ok _ => exact .inr ⟨none, none, [_], [_], rfl, rfl, rfl⟩
    | error misuse => exact .inl ⟨misuse, rfl, rfl⟩

/-- Questions that end in the same way make runs that are alike. -/
theorem asked {α : Type} (h : Alike s t) {asked asked' : Evaluation.Asked α}
    (hended : asked'.1.map (fun _ => ()) = asked.1.map fun _ => ()) (reply : α → Reply) :
    AlikeRuns (s.asked asked reply) (t.asked asked' reply) := by
  refine ⟨?_, h.log _ _⟩
  obtain ⟨result, records⟩ := asked
  obtain ⟨result', records'⟩ := asked'
  cases result <;> cases result'
  · exact congrArg (fun misuse => Except.error (Error.misuse misuse)) (Except.error.inj hended)
  · contradiction
  · contradiction
  · rfl

/-- An answer of which a part is written first ends as the writing does. -/
theorem ended_after {α : Type} (answer : Evaluation.Answer α) (written : Except Misuse Unit) :
    (answer.after written).1.map (fun _ => ()) = written := by
  cases written <;> rfl

theorem ended_askResolution (h : Alike s t) (memberships subject : Value) :
    (Evaluation.askResolution t.engine memberships subject).1.map (fun _ => ()) =
      (Evaluation.askResolution s.engine memberships subject).1.map fun _ => () := by
  obtain ⟨misuse, hs, ht⟩ | ⟨r, r', _, _, -, hs, ht⟩ := h.askResolution_cases memberships subject
  · rw [hs, ht]
  · rw [hs, ht]
    rfl

theorem ended_askDecision (h : Alike s t) (memberships action subject : Value) :
    (Evaluation.askDecision t.engine memberships action subject).1.map (fun _ => ()) =
      (Evaluation.askDecision s.engine memberships action subject).1.map fun _ => () := by
  simp only [Evaluation.askDecision]
  obtain ⟨misuse, hs, ht⟩ | ⟨r, r', _, _, hsome, hs, ht⟩ := h.askResolution_cases memberships subject
  · rw [hs, ht]
  · rw [hs, ht]
    cases r <;> cases r'
    · exact (ended_after _ _).trans (ended_after _ _).symm
    · contradiction
    · contradiction
    · cases Name.ofValue? action with
      | none => exact (ended_after _ _).trans (ended_after _ _).symm
      | some name => exact (ended_after _ _).trans (ended_after _ _).symm

theorem ended_askAllowed (h : Alike s t) (memberships action subject : Value) :
    (Evaluation.askAllowed t.engine memberships action subject).1.map (fun _ => ()) =
      (Evaluation.askAllowed s.engine memberships action subject).1.map fun _ => () := by
  have hdecision := h.ended_askDecision memberships action subject
  simp only [Evaluation.askAllowed]
  generalize (Evaluation.askDecision t.engine memberships action subject).1 = result',
    (Evaluation.askDecision s.engine memberships action subject).1 = result at hdecision ⊢
  cases result <;> cases result' <;> exact hdecision

theorem ended_askPolicies (h : Alike s t) (memberships subject : Value) :
    (Evaluation.askPolicies t.engine memberships subject).1.map (fun _ => ()) =
      (Evaluation.askPolicies s.engine memberships subject).1.map fun _ => () := by
  simp only [Evaluation.askPolicies]
  obtain ⟨misuse, hs, ht⟩ | ⟨r, r', _, _, -, hs, ht⟩ := h.askResolution_cases memberships subject
  · rw [hs, ht]
  · rw [hs, ht]
    exact (ended_after _ _).trans (ended_after _ _).symm

/-- A step ends in the same way in two sessions that are alike, and leaves them alike. -/
theorem perform (h : Alike s t) (step : Step) : AlikeRuns (step.perform s) (step.perform t) := by
  cases step with
  | register r =>
    simp only [Step.perform, Session.register, h.graph]
    refine AlikeResults.whole ?_ h
    cases s.engine.graph.register r with
    | error e => rfl
    | ok registered => exact (h.withGraph _).log _ _
  | assignParents name parents =>
    simp only [Step.perform, h.graph]
    refine AlikeResults.whole ?_ h
    refine alikeResults_bind _ fun e => alikeResults_bind _ fun parents => ?_
    exact h.withGraph _
  | declare r =>
    simp only [Step.perform, h.graph, h.current]
    exact AlikeResults.whole (alikeResults_map _ fun d => (h.record _ d).log _ _) h
  | callKept label given =>
    simp only [Step.perform, Session.callKept, h.kept]
    refine AlikeResults.whole ?_ h
    cases aside s.kept label with
    | error e => rfl
    | ok setter => exact (h.callSetter setter given).map fun _ => rfl
  | build => exact alikeRuns_ok (h.build _ _).publish
  | clear => exact alikeRuns_ok h.clear
  | hold label =>
    simp only [Step.perform, putAside]
    refine AlikeResults.whole ?_ h
    cases Error.ofMisuse label.checkKey with
    | error e => rfl
    | ok _ => exact { h with labels := Value.map_fst_putEntry h.labels label _ _ }
  | compiled held =>
    have hsnapshot := h.snapshot held
    simp only [Step.perform]
    refine AlikeResults.whole ?_ h
    generalize s.snapshot held = found, t.snapshot held = found' at hsnapshot ⊢
    cases found <;> cases found'
    · exact Except.error.inj hsnapshot
    · contradiction
    · contradiction
    · exact h
  | declared context role subject subjectRole =>
    simp only [Step.perform, declaredActions]
    refine AlikeResults.whole ?_ h
    generalize (forIn [context, role, subject, subjectRole] _ _ : Except Error _) = checked
    cases checked with
    | error e => rfl
    | ok _ =>
      dsimp only [bind, Except.bind]
      split <;> exact h
  | registerAgain ref =>
    simp only [Step.perform, h.graph]
    exact AlikeResults.whole (alikeResults_map _ fun _ => h) h
  | entity name =>
    simp only [Step.perform, h.graph]
    exact AlikeResults.whole (alikeResults_map _ fun _ => h) h
  | require ref =>
    simp only [Step.perform, h.graph]
    exact AlikeResults.whole (alikeResults_map _ fun _ => h) h
  | contains ref =>
    simp only [Step.perform, h.graph]
    exact AlikeResults.whole (alikeResults_map _ fun _ => h) h
  | compareRoles a b => exact AlikeResults.whole (alikeResults_map _ fun _ => h) h
  | hierarchy =>
    simp only [Step.perform, h.graph]
    exact AlikeResults.whole (alikeResults_map _ fun _ => h) h
  | role context name =>
    simp only [Step.perform, h.graph]
    exact AlikeResults.whole (alikeResults_bind _ fun _ => alikeResults_bind _ fun _ => h) h
  | paths name =>
    simp only [Step.perform, h.graph]
    exact AlikeResults.whole (alikeResults_bind _ fun _ => alikeResults_bind _ fun _ => h) h
  | relationships names =>
    simp only [Step.perform, h.graph]
    exact AlikeResults.whole (alikeResults_bind _ fun _ => alikeResults_bind _ fun _ => h) h
  | allowanceFor subject action => exact AlikeResults.whole (alikeResults_bind _ fun _ => h) h
  | cell context role subject subjectRole =>
    exact AlikeResults.whole (alikeResults_bind _ fun _ => h) h
  | adaptMemberships adapter? => exact alikeRuns_ok { h with memberships := rfl }
  | adaptSubjects adapter? => exact alikeRuns_ok { h with subjects := rfl }
  | isAllowed memberships action subject =>
    exact h.asked (h.ended_askAllowed memberships action subject) _
  | explain memberships action subject =>
    exact h.asked (h.ended_askDecision memberships action subject) _
  | actorPolicies memberships subject => exact h.asked (h.ended_askPolicies memberships subject) _
  | resolve memberships subject => exact h.asked (h.ended_askResolution memberships subject) _
  | graph => exact alikeRuns_ok h
  | refused mentioned error => exact ⟨rfl, h⟩

theorem performOps (h : Alike s t) (step : Step) : step.performOps t = step.performOps s := by
  cases step with
  | assignParents name parents | declare r => simp only [Step.performOps, h.graph]
  | callKept label given => simp only [Step.performOps, h.kept]
  | _ => rfl

theorem stepOps (h : Alike s t) (step : Step) : step.ops t = step.ops s := by
  rw [Step.ops, Step.ops]
  obtain ⟨_, _, next, next', hs, ht, halike⟩ | ⟨e, next, next', hs, ht, halike⟩ :=
    (h.mentionAll step.mentions).cases
  · simp only [hs, ht]
    exact halike.performOps step
  · simp only [hs, ht]

/-- A step ends in the same way in two sessions that are alike, whatever it mentions, and leaves them
alike. -/
theorem stepRun (h : Alike s t) (step : Step) : AlikeRuns (step.run s) (step.run t) := by
  rw [Step.run, Step.run]
  obtain ⟨_, _, next, next', hs, ht, halike⟩ | ⟨e, next, next', hs, ht, halike⟩ :=
    (h.mentionAll step.mentions).cases
  · simp only [hs, ht]
    exact halike.perform step
  · simp only [hs, ht]
    exact ⟨rfl, halike⟩

/-- A callback reaches the same setters in sessions that are alike. -/
theorem reach (h : Alike s t) (call : Call) (context : String) :
    call.reach t context = call.reach s context := by
  simp only [Call.reach, h.graph, h.views]

theorem find (h : Alike s t) (call : Call) (context : Value) :
    call.find t context = call.find s context := by
  simp only [Call.find, h.reach]

theorem sight (h : Alike s t) (call : Call) : call.sight t = call.sight s := by
  simp only [Call.sight, h.reach, h.graph]

/-- Reaching a setter and calling it or putting it aside keeps sessions alike. -/
theorem set (h : Alike s t) (call : Call) (context role : Value) (form : Policy.Form)
    (keep? : Option Value) (given : Given) :
    AlikeResults id (call.set s context role form keep? given)
      (call.set t context role form keep? given) := by
  simp only [Call.set, h.find]
  refine alikeResults_bind _ fun reach => alikeResults_bind _ fun setter => ?_
  cases keep? with
  | some label =>
    simp only [h.kept]
    exact alikeResults_bind _ fun kept => { h with kept := rfl }
  | none => exact h.callSetter setter given

theorem setOps (h : Alike s t) (call : Call) (context role : Value) (form : Policy.Form)
    (keep? : Option Value) (given : Given) :
    call.setOps t context role form keep? given = call.setOps s context role form keep? given := by
  simp only [Call.setOps, h.find]

/-- A callback is called for the same subjects in sessions that are alike, and does the same. -/
theorem visitAll {callback : String → Nat → Trace → Session → Visit}
    {ops : String → Nat → Trace → Session → List Operation}
    (hcallback : ∀ {s t : Session}, Alike s t → ∀ subject visit trace trace',
      ops subject visit trace' t = ops subject visit trace s ∧
        AlikeVisits (callback subject visit trace s) (callback subject visit trace' t))
    (h : Alike s t) (subjects : List String) (trace trace' : Trace) :
    visitOps callback ops subjects trace' t = visitOps callback ops subjects trace s ∧
      AlikeVisits (Session.visitAll callback subjects trace s)
        (Session.visitAll callback subjects trace' t) := by
  induction subjects generalizing trace trace' s t with
  | nil => exact ⟨rfl, rfl, h⟩
  | cons subject rest ih =>
    have hnext : Alike { s with visits := s.visits + 1 } { t with visits := t.visits + 1 } :=
      { h with visits := congrArg (· + 1) h.visits }
    obtain ⟨hops, hvisit⟩ := hcallback hnext subject s.visits
      { trace with visited := trace.visited ++ [subject] }
      { trace' with visited := trace'.visited ++ [subject] }
    simp only [visitOps, Session.visitAll]
    rw [h.visits] at hops hvisit ⊢
    rw [hops]
    obtain ⟨_, _, trace, trace', next, next', hs, ht, halike⟩ |
      ⟨e, trace, trace', next, next', hs, ht, halike⟩ := hvisit.cases
    · simp only [hs, ht]
      obtain ⟨hrest, hvisits⟩ := ih halike trace trace'
      exact ⟨congrArg (_ ++ ·) hrest, hvisits⟩
    · simp only [hs, ht, halike.graph]
      exact ⟨trivial, rfl, halike⟩

end Alike

mutual

/-- A command does the same in sessions that are alike. -/
theorem Command.alike : (command : Command) → {s t : Session} → Alike s t →
    command.ops t = command.ops s ∧ AlikeVisits (command.run s) (command.run t)
  | .step step, s, t, h => by
    simp only [Command.run, Command.ops]
    exact ⟨h.stepOps step, h.stepRun step⟩
  | .configure rules, s, t, h => by
    have hround : t.engine.compiler.stage.2 = s.engine.compiler.stage.2 := h.count
    obtain ⟨hops, hvisits⟩ := h.stage.visitAll
      (fun hnext subject visit => Rule.allAlike rules hnext
        ⟨s.engine.compiler.stage.2, s.engine.graph.contexts.map Entity.name, subject, visit⟩)
      s.engine.graph.names {} {}
    simp only [Command.run, Command.ops, h.graph, hround]
    rw [hops]
    obtain ⟨_, _, trace, trace', next, next', hs, ht, halike⟩ |
      ⟨e, trace, trace', next, next', hs, ht, halike⟩ := hvisits.cases
    · simp only [hs, ht]
      exact ⟨trivial, alikeVisits_ok (halike.adopt _ _ _).publish⟩
    · simp only [hs, ht]
      exact ⟨trivial, rfl, halike⟩
  | .forEachSubject rules, s, t, h => by
    obtain ⟨hops, hvisits⟩ := h.visitAll
      (fun hnext subject visit => Rule.allAlike rules hnext
        ⟨s.engine.compiler.current, s.engine.graph.contexts.map Entity.name, subject, visit⟩)
      s.engine.graph.names {} {}
    simp only [Command.run, Command.ops, h.graph, h.current]
    refine ⟨hops, ?_⟩
    obtain ⟨_, _, trace, trace', next, next', hs, ht, halike⟩ |
      ⟨e, trace, trace', next, next', hs, ht, halike⟩ := hvisits.cases
    · simp only [hs, ht]
      exact ⟨rfl, halike⟩
    · simp only [hs, ht]
      exact ⟨rfl, halike⟩

/-- The rules of a callback do the same in sessions that are alike. -/
theorem Rule.allAlike : (rules : List Rule) → {s t : Session} → Alike s t → (call : Call) →
    (trace trace' : Trace) → Rule.allOps rules call trace' t = Rule.allOps rules call trace s ∧
      AlikeVisits (Rule.followAll rules call trace s) (Rule.followAll rules call trace' t)
  | [], s, t, h, call, trace, trace' => ⟨rfl, rfl, h⟩
  | rule :: rest, s, t, h, call, trace, trace' => by
    obtain ⟨hops, hfollow⟩ := Rule.alike rule h call trace trace'
    rw [Rule.allOps, Rule.allOps, Rule.followAll, Rule.followAll, hops]
    obtain ⟨_, _, trace, trace', next, next', hs, ht, halike⟩ |
      ⟨e, trace, trace', next, next', hs, ht, halike⟩ := hfollow.cases
    · simp only [hs, ht]
      obtain ⟨hrest, hvisits⟩ := Rule.allAlike rest halike call trace trace'
      exact ⟨congrArg (_ ++ ·) hrest, hvisits⟩
    · simp only [hs, ht]
      exact ⟨trivial, rfl, halike⟩

theorem Rule.alike : (rule : Rule) → {s t : Session} → Alike s t → (call : Call) →
    (trace trace' : Trace) → Rule.ops rule call trace' t = Rule.ops rule call trace s ∧
      AlikeVisits (Rule.follow rule call trace s) (Rule.follow rule call trace' t)
  | .mk subject? task, s, t, h, call, trace, trace' => by
    simp only [Rule.ops, Rule.follow]
    split
    · exact Task.alike task h call trace trace'
    · exact ⟨rfl, rfl, h⟩

theorem Task.alike : (task : Task) → {s t : Session} → Alike s t → (call : Call) →
    (trace trace' : Trace) → Task.ops task call trace' t = Task.ops task call trace s ∧
      AlikeVisits (Task.perform task call trace s) (Task.perform task call trace' t)
  | .set context role form keep? given, s, t, h, call, trace, trace' => by
    have hset := h.set call context role form keep? given
    simp only [Task.ops, Task.perform]
    refine ⟨h.setOps call context role form keep? given, ?_⟩
    generalize call.set s context role form keep? given = result,
      call.set t context role form keep? given = result' at hset ⊢
    cases result <;> cases result'
    · exact ⟨congrArg Except.error hset, h⟩
    · contradiction
    · contradiction
    · exact ⟨rfl, hset⟩
  | .fail error, s, t, h, call, trace, trace' => ⟨rfl, rfl, h⟩
  | .probe, s, t, h, call, trace, trace' => by
    simp only [Task.ops, Task.perform, h.sight]
    split <;> exact ⟨trivial, rfl, h⟩
  | .run command, s, t, h, call, trace, trace' => by
    obtain ⟨hops, hrun⟩ := Command.alike command h
    simp only [Task.ops, Task.perform]
    refine ⟨hops, ?_⟩
    obtain ⟨_, _, _, _, next, next', hs, ht, halike⟩ | ⟨e, _, _, next, next', hs, ht, halike⟩ :=
      hrun.cases
    · simp only [hs, ht]
      exact ⟨rfl, halike⟩
    · simp only [hs, ht]
      exact ⟨rfl, halike⟩
  | .attempt caught body handler, s, t, h, call, trace, trace' => by
    obtain ⟨hops, hbody⟩ := Rule.allAlike body h call trace trace'
    simp only [Task.ops, Task.perform, hops]
    obtain ⟨_, _, trace, trace', next, next', hs, ht, halike⟩ |
      ⟨e, trace, trace', next, next', hs, ht, halike⟩ := hbody.cases
    · simp only [hs, ht]
      exact ⟨trivial, rfl, halike⟩
    · simp only [hs, ht]
      split
      · obtain ⟨hhandler, hhandled⟩ := Rule.allAlike handler halike call trace trace'
        exact ⟨congrArg (_ ++ ·) hhandler, hhandled⟩
      · exact ⟨rfl, rfl, halike⟩

end

end AccessMatrix.Session
