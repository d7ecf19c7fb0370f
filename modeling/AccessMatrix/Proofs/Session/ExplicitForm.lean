import AccessMatrix.Proofs.Graph.Closure
import AccessMatrix.Proofs.Session.Moments
import AccessMatrix.Proofs.Session.Recording

/-!
# Configurations as explicit declarations

A callback that only calls setters makes a list of calls, subject by subject. A configuration with it
comes to dropping the declarations, making a request for every call and building.
-/

namespace AccessMatrix

open Outcome

/-- What a value names among several names is one of them, of the text of the value. -/
theorem Name.among?_eq_some {names : List Name} {v : Value} {name : Name}
    (h : among? names v = some name) : name ∈ names ∧ v.asText? = some name.text := by
  obtain ⟨text, htext, hfind⟩ := Option.bind_eq_some_iff.mp h
  have hname : name.text = text := by simpa using List.find?_some hfind
  exact ⟨List.mem_of_find?_eq_some hfind, hname ▸ htext⟩

namespace Policy

/-- What is merged for an action is what was last given for it by name, or else what was given by
position. -/
theorem lookup_mergedEntries {given : Value} {entries merged : List (Value × Value)}
    {named : List (Name × Value)} (hgiven : givenEntries given = .ok entries)
    (h : mergedEntries given named = .ok merged) (action : String) :
    Value.lookup merged (.text action) =
      ((named.filter fun entry => entry.1.text = action).getLast?.map Prod.snd).or
        (Value.lookup entries (.text action)) := by
  rw [mergedEntries, hgiven] at h
  obtain rfl : named.foldl (fun entries entry => Value.putEntry entries entry.1.toValue entry.2)
      entries = merged := Except.ok.inj h
  clear h hgiven
  induction named using List.reverseRecOn with
  | nil => rfl
  | append_singleton named entry ih =>
    rw [List.foldl_append, List.foldl_cons, List.foldl_nil,
      Value.lookup_putEntry _ (Request.asText?_toValue entry.1), List.filter_append]
    by_cases hentry : entry.1.text = action
    · simp [hentry]
    · rw [if_neg hentry, ih]
      simp [hentry]

end Policy

namespace Session

open Policy (Declaration Request RoundId Setter)

/-- A call of a setter by a callback: the subject that the callback was called for, the context and the
role whose items lead to the setter, and the arguments. -/
structure SetterCall where
  subject : String
  context : Value
  role : Value
  given : Given

/-- A rule that only calls a setter, which it reaches by items. -/
def Rule.callsItem : Rule → Bool
  | .mk _ (.set _ _ .item none _) => true
  | _ => false

/-- The call that a rule makes for a subject, if it is for the subject. -/
def Rule.call? (subject : String) : Rule → Option SetterCall
  | .mk subject? (.set context role .item none given) =>
    if subject?.all (·.asText? = some subject) then some ⟨subject, context, role, given⟩ else none
  | _ => none

/-- The calls of a callback, subject by subject. -/
def setterCalls (g : Graph) (rules : List Rule) : List SetterCall :=
  g.names.flatMap fun subject => rules.filterMap (Rule.call? subject)

namespace SetterCall

/-- The entries that a call gives by position and by name together. -/
def entries (call : SetterCall) : Except Error (List (Value × Value)) := do
  let (value?, named) ← call.given
  let named ← Error.ofMisuse do Policy.namedArguments (← Policy.namedEntries Setter.title named)
  Error.ofMisuse (Policy.mergedEntries (value?.getD .null) named)

/-- Of every action, entries say what the call gives for it by name, the last of all, or else what it
gives by position. -/
def Merges (call : SetterCall) (merged : List (Value × Value)) : Prop :=
  ∃ value? named arguments entries, call.given = .ok (value?, .mapping named) ∧
    Policy.namedArguments named = .ok arguments ∧
    Policy.givenEntries (value?.getD .null) = .ok entries ∧
    ∀ action, Value.lookup merged (.text action) =
      ((arguments.filter fun entry => entry.1.text = action).getLast?.map Prod.snd).or
        (Value.lookup entries (.text action))

theorem merges_of_entries {call : SetterCall} {merged : List (Value × Value)}
    (h : call.entries = .ok merged) : call.Merges merged := by
  obtain ⟨⟨value?, value⟩, hgiven, hrest⟩ := bind_eq_ok.mp h
  obtain ⟨arguments, hread, hmerge⟩ := bind_eq_ok.mp hrest
  obtain ⟨named, hnamed, harguments⟩ := bind_eq_ok.mp (mapError_eq_ok.mp hread)
  obtain rfl : value = .mapping named := by
    cases value <;> simp [Policy.namedEntries] at hnamed ⊢
    exact hnamed
  have hmerged := mapError_eq_ok.mp hmerge
  obtain ⟨entries, hentries, -⟩ := map_eq_ok.mp hmerged
  exact ⟨value?, named, arguments, entries, hgiven, harguments, hentries,
    Policy.lookup_mergedEntries hentries hmerged⟩

/-- What a call declares: of the role that is registered under the name, over every role of the subject,
the entries together. -/
structure Makes (g : Graph) (call : SetterCall) (d : Declaration) : Prop where
  context : ∃ e ∈ g.contexts, call.context.asText? = some e.name ∧ d.context = e.label ∧
    Name.among? e.roleLabels call.role = some d.role
  subject : ∃ e ∈ g.entities, e.name = call.subject ∧ d.subject = e.label
  scope : d.scope = .every
  actions : ∃ entries, call.entries = .ok entries ∧ Policy.checkEntries entries = .ok d.actions

/-- A request states a call: its context and subject mean those of the call, its role has the text of
the call's, its actions are the entries together, and it gives no role on the subject. -/
structure StatedBy (g : Graph) (call : SetterCall) (r : Request) : Prop where
  context : ∃ e, r.context.Means g e ∧ call.context.asText? = some e.name
  role : r.role.asText? = call.role.asText?
  subject : ∃ e, r.subject.Means g e ∧ e.name = call.subject
  actions : ∃ entries, call.entries = .ok entries ∧ r.actions = .mapping entries
  whole : r.subjectRole? = none

end SetterCall

/-- A request spells its role as it was registered with its context. -/
def SpellsRole (g : Graph) (r : Request) : Prop :=
  ∃ e, r.context.Means g e ∧ ∃ label ∈ e.roleLabels, r.role = label.toValue

namespace SetterCall

variable {g : Graph} {call : SetterCall} {d : Declaration} {r : Request}

/-- A request that states a call is accepted. It declares what the call does, but for the spelling of the
role, which is that of the request. -/
theorem Makes.check (hg : g.WellNamed) (h : call.Makes g d) (hr : StatedBy g call r) :
    ∃ d', r.check g = .ok d' ∧ d.SameTexts d' ∧ (SpellsRole g r → d = d') := by
  obtain ⟨e, he, hname, hlabel, hrole⟩ := h.context
  obtain ⟨hregistered, hkind⟩ := List.mem_filter.mp he
  obtain ⟨context, hcontext, hname'⟩ := hr.context
  obtain rfl : context = e := List.inj_on_of_nodup_map hg.names_nodup hcontext.1
    hregistered (Option.some.inj (hname'.symm.trans hname))
  obtain ⟨subject, hsubject, hsubjectName, hsubjectLabel⟩ := h.subject
  obtain ⟨subject', hsubject', hsubjectName'⟩ := hr.subject
  obtain rfl : subject' = subject := List.inj_on_of_nodup_map hg.names_nodup hsubject'.1
    hsubject (hsubjectName'.trans hsubjectName.symm)
  obtain ⟨hroleLabel, htext⟩ := Name.among?_eq_some hrole
  obtain ⟨entries, hentries, hactions⟩ := h.actions
  obtain ⟨entries', hentries', hmapping⟩ := hr.actions
  obtain rfl := Except.ok.inj (hentries.symm.trans hentries')
  have hspelled : (Name.ofValue? r.role).map Name.text = some d.role.text := by
    rw [Name.map_text_ofValue?, hr.role, htext]
  obtain ⟨spelled, hspelled, hsame⟩ := Option.map_eq_some_iff.mp hspelled
  have hswitches := Policy.checkEntries_eq_ok_iff.mp hactions
  refine ⟨{ d with role := spelled }, ?_, ⟨rfl, hsame.symm, rfl, rfl, rfl⟩, fun hspells => ?_⟩
  · refine (Request.check_eq_ok_iff hg.names_nodup).mpr ⟨context, subject', ?_, ?_⟩
    · exact {
        context_means := hcontext
        isContext := hkind
        role := ⟨d.role.text, List.mem_map_of_mem hroleLabel, hr.role.trans htext⟩
        subject_means := hsubject'
        subjectRole := by simp [hr.whole]
        ownRole := by simp [hr.whole]
        actions := ⟨entries, hmapping, Policy.forall_validEntry_iff.mpr ⟨_, hswitches⟩⟩ }
    · refine ⟨hlabel, Name.toValue_of_ofValue? hspelled, hsubjectLabel, ?_, entries, hmapping, hswitches⟩
      rw [Request.scope, hr.whole]
      exact h.scope
  · obtain ⟨other, hother, label, hregisteredLabel, hspelling⟩ := hspells
    have hmeant := (Ref.means_iff hg.names_nodup).mp hcontext
    obtain rfl : context = other :=
      Option.some.inj (hmeant.symm.trans ((Ref.means_iff hg.names_nodup).mp hother))
    obtain rfl : label = spelled := by simpa [hspelling, Name.ofValue?_toValue] using hspelled
    obtain rfl : label = d.role :=
      List.inj_on_of_nodup_map (hg.entity context hregistered).roles_nodup hregisteredLabel
        hroleLabel hsame
    rfl

/-- Every call that declares something is stated by a request that spells the role as it was
registered. -/
theorem Makes.exists_statedBy (h : call.Makes g d) :
    ∃ r, StatedBy g call r ∧ SpellsRole g r := by
  obtain ⟨e, he, hname, -, hrole⟩ := h.context
  obtain ⟨hregistered, -⟩ := List.mem_filter.mp he
  obtain ⟨subject, hsubject, hsubjectName, -⟩ := h.subject
  obtain ⟨hroleLabel, htext⟩ := Name.among?_eq_some hrole
  obtain ⟨entries, hentries, -⟩ := h.actions
  have hcontext : (Ref.value call.context).Means g e := ⟨hregistered, .inr ⟨_, rfl, hname⟩⟩
  have hown : (Ref.own subject.name).Means g subject := ⟨hsubject, .inl rfl⟩
  refine ⟨{ context := .value call.context, role := d.role.toValue, subject := .own subject.name,
            actions := .mapping entries }, ?_, e, hcontext, d.role, hroleLabel, rfl⟩
  exact {
    context := ⟨e, hcontext, hname⟩
    role := (Request.asText?_toValue d.role).trans htext.symm
    subject := ⟨subject, hown, hsubjectName⟩
    actions := ⟨entries, hentries, rfl⟩
    whole := rfl }

end SetterCall

/-- A callback at work in a session, before any view of its visit was altered. -/
structure Call.Fresh (call : Call) (s : Session) : Prop where
  contexts : call.contexts = s.engine.graph.contexts.map Entity.name
  subject : call.subject ∈ s.engine.graph.names
  views : ∀ context, s.views.get? ⟨call.visit, context⟩ = none

namespace Call.Fresh

variable {call : Call} {s t : Session} {context role : Value}

/-- When a visit begins, the views that were altered are those of earlier visits. -/
theorem begin {round : RoundId} {contexts : List String} {subject : String}
    (hcontexts : contexts = s.engine.graph.contexts.map Entity.name)
    (hsubject : subject ∈ s.engine.graph.names)
    (hviews : ∀ entry ∈ s.views, entry.1.visit < s.visits) :
    Call.Fresh ⟨round, contexts, subject, s.visits⟩ { s with visits := s.visits + 1 } := by
  refine ⟨hcontexts, hsubject, fun context => ?_⟩
  change s.views.get? ⟨s.visits, context⟩ = none
  cases hview : s.views.get? ⟨s.visits, context⟩ with
  | none => rfl
  | some view => exact absurd (hviews _ (Table.mem_of_get? hview)) (Nat.lt_irrefl _)

theorem recordIn (h : call.Fresh s) (id : RoundId) (d : Declaration) : call.Fresh (s.recordIn id d) :=
  ⟨h.contexts, h.subject, h.views⟩

/-- By items such a callback reaches the setter of a registered role. -/
theorem setter_item (hg : s.engine.graph.WellNamed) (h : call.Fresh s) {setter : Setter}
    (hsetter : call.setter s context role .item = .ok setter) :
    ∃ e ∈ s.engine.graph.contexts, context.asText? = some e.name ∧
      ∃ label, Name.among? e.roleLabels role = some label ∧
        setter = .policy call.round e.label label (s.engine.graph.labelOf call.subject) := by
  obtain ⟨reach, hreach, hfind⟩ := bind_eq_ok.mp hsetter
  obtain ⟨name, hseen, htext, rfl⟩ := Call.find_ok hreach
  obtain ⟨e, he, rfl⟩ := List.mem_map.mp (h.contexts ▸ hseen)
  have hregistered : e ∈ s.engine.graph.entities := (List.mem_filter.mp he).1
  obtain ⟨found, hfound, rfl⟩ := map_eq_ok.mp hfind
  have hview : (call.reach s e.name).view = freshView s.engine.graph e.name := by
    rw [Call.reach, h.views, Option.getD_none]
  rw [hview, Policy.ContextView.item] at hfound
  obtain ⟨_, -, hfound⟩ := bind_eq_ok.mp hfound
  split at hfound
  rotate_left
  · contradiction
  rename_i label hlabel
  obtain rfl := pure_eq_ok.mp hfound
  refine ⟨e, he, htext, label, ?_, ?_⟩
  · rw [← Graph.roleLabelsOf_of_within (.refl _) hg hregistered]
    exact hlabel
  · rw [← Graph.labelOf_of_within (.refl _) hg hregistered]
    rfl

/-- A call that succeeds records what it declares. -/
theorem set_item (hg : s.engine.graph.WellNamed) (h : call.Fresh s) {given : Given}
    (hset : call.set s context role .item none given = .ok t) :
    ∃ d, SetterCall.Makes s.engine.graph ⟨call.subject, context, role, given⟩ d ∧
      t = s.recordIn call.round d := by
  obtain ⟨setter, hsetter, hcalled⟩ := Call.set_ok hset
  obtain ⟨e, he, hname, label, hlabel, rfl⟩ := h.setter_item hg hsetter
  dsimp only at hcalled
  obtain ⟨⟨value?, named⟩, rfl, hcall⟩ := bind_eq_ok.mp hcalled
  rw [callSetter_policy] at hcall
  obtain ⟨d, hd, rfl⟩ := map_eq_ok.mp hcall
  obtain ⟨arguments, harguments, hd⟩ := bind_eq_ok.mp hd
  obtain ⟨entries, hentries, hd⟩ := bind_eq_ok.mp hd
  obtain ⟨actions, hactions, hd⟩ := bind_eq_ok.mp hd
  obtain rfl := pure_eq_ok.mp hd
  obtain ⟨subject, hsubject, hsubjectName⟩ := Graph.mem_names.mp h.subject
  have hsubjectLabel : s.engine.graph.labelOf call.subject = subject.label :=
    hsubjectName ▸ Graph.labelOf_of_within (.refl _) hg hsubject
  have htogether : SetterCall.entries ⟨call.subject, context, role, .ok (value?, named)⟩ =
      .ok entries := bind_eq_ok.mpr ⟨_, rfl, bind_eq_ok.mpr ⟨arguments, harguments, hentries⟩⟩
  exact ⟨_, ⟨⟨e, he, hname, rfl, hlabel⟩, ⟨subject, hsubject, hsubjectName, hsubjectLabel⟩, rfl,
    entries, htogether, mapError_eq_ok.mp hactions⟩, rfl⟩

end Call.Fresh

/-- A callback that only calls setters, and does not fail, records what its calls declare. -/
theorem followAll_ok {rules : List Rule} (hrules : ∀ rule ∈ rules, rule.callsItem = true) {call : Call}
    (trace : Trace) {s : Session} (hg : s.engine.graph.WellNamed) (h : call.Fresh s)
    (hok : (Rule.followAll rules call trace s).1 = .ok ()) :
    ∃ ds, List.Forall₂ (SetterCall.Makes s.engine.graph)
        (rules.filterMap (Rule.call? call.subject)) ds ∧
      (Rule.followAll rules call trace s).2 = (trace, s.recordAllIn call.round ds) := by
  induction rules generalizing s with
  | nil => exact ⟨[], .nil, rfl⟩
  | cons rule rest ih =>
    obtain ⟨hrule, hrest⟩ := List.forall_mem_cons.mp hrules
    obtain ⟨subject?, task⟩ := rule
    obtain ⟨context, role, form, keep?, given⟩ | _ | _ | _ | _ := task
    rotate_left
    · contradiction
    · contradiction
    · contradiction
    · contradiction
    obtain ⟨rfl, rfl⟩ : form = .item ∧ keep? = none := by
      cases form <;> cases keep? <;> simp [Rule.callsItem] at hrule ⊢
    rw [Rule.followAll, Rule.follow] at hok ⊢
    by_cases hsubject : subject?.all (·.asText? = some call.subject) = true
    · have hcall : Rule.call? call.subject (.mk subject? (.set context role .item none given)) =
          some ⟨call.subject, context, role, given⟩ := if_pos hsubject
      rw [if_pos hsubject, Task.perform] at hok ⊢
      rw [List.filterMap_cons_some hcall]
      cases hset : call.set s context role .item none given with
      | error e => simp [hset] at hok
      | ok next =>
        obtain ⟨d, hd, rfl⟩ := h.set_item hg hset
        rw [hset] at hok
        obtain ⟨ds, hds, hlast⟩ := ih (s := s.recordIn call.round d) hrest hg
          (h.recordIn call.round d) hok
        exact ⟨d :: ds, .cons hd hds, hlast⟩
    · have hcall : Rule.call? call.subject (.mk subject? (.set context role .item none given)) = none :=
        if_neg hsubject
      rw [if_neg hsubject] at hok ⊢
      rw [List.filterMap_cons_none hcall]
      exact ih hrest hg h hok

/-- Such a callback is called once for every subject, in their order, and what the calls declare is
recorded. -/
theorem visitAll_ok {rules : List Rule} (hrules : ∀ rule ∈ rules, rule.callsItem = true)
    (round : RoundId) {contexts subjects : List String} (trace : Trace) {s : Session}
    (hg : s.engine.graph.WellNamed)
    (hcontexts : contexts = s.engine.graph.contexts.map Entity.name)
    (hsubjects : ∀ name ∈ subjects, name ∈ s.engine.graph.names)
    (hviews : ∀ entry ∈ s.views, entry.1.visit < s.visits) :
    let visit := visitAll
      (fun subject visit => Rule.followAll rules ⟨round, contexts, subject, visit⟩) subjects trace s
    visit.1 = .ok () →
      ∃ ds, List.Forall₂ (SetterCall.Makes s.engine.graph)
          (subjects.flatMap fun subject => rules.filterMap (Rule.call? subject)) ds ∧
        visit.2 = ({ trace with visited := trace.visited ++ subjects },
          { s.recordAllIn round ds with visits := s.visits + subjects.length }) := by
  induction subjects generalizing trace s with
  | nil => exact fun _ => ⟨[], .nil, by simp [visitAll, recordAllIn]⟩
  | cons subject rest ih =>
    obtain ⟨hsubject, hrest⟩ := List.forall_mem_cons.mp hsubjects
    let begun : Session := { s with visits := s.visits + 1 }
    let next : Trace := { trace with visited := trace.visited ++ [subject] }
    have hfresh : Call.Fresh ⟨round, contexts, subject, s.visits⟩ begun :=
      .begin hcontexts hsubject hviews
    have hfollowed := followAll_ok hrules next (s := begun) hg hfresh
    intro visit hok
    simp only [visit, visitAll] at hok ⊢
    change (Rule.followAll rules ⟨round, contexts, subject, s.visits⟩ next begun).1 = _ → _ at hfollowed
    generalize Rule.followAll rules ⟨round, contexts, subject, s.visits⟩ next begun = followed
      at hfollowed hok ⊢
    obtain ⟨_ | ⟨⟩, last, left⟩ := followed
    · contradiction
    obtain ⟨ds, hds, hlast⟩ := hfollowed rfl
    obtain ⟨rfl, rfl⟩ := Prod.mk.inj hlast
    obtain ⟨hgraph, -, hvisits, hleft⟩ := rest_recordAllIn begun round ds
    obtain ⟨ds', hds', hvisited⟩ := ih next (s := begun.recordAllIn round ds) (hgraph ▸ hg)
      (hgraph ▸ hcontexts) (hgraph ▸ hrest)
      (fun entry hentry => hvisits ▸ Nat.lt_succ_of_lt (hviews entry (hleft ▸ hentry))) hok
    refine ⟨ds ++ ds', ?_, ?_⟩
    · rw [List.flatMap_cons]
      exact List.rel_append hds (hgraph ▸ hds')
    · rw [hvisited, hvisits]
      have hrecorded : (begun.recordAllIn round ds).recordAllIn round ds' =
          { s.recordAllIn round (ds ++ ds') with visits := s.visits + 1 } := by
        rw [← recordAllIn_visits, recordAllIn_append]
      rw [hrecorded]
      simp [next, begun, Nat.add_assoc, Nat.add_comm 1]

/-- Requests that state the calls one by one are all accepted. They declare what the calls do, but for
the spelling of the roles. -/
theorem checks_of_stated {g : Graph} (hg : g.WellNamed) {calls : List SetterCall}
    {ds : List Declaration} (hds : List.Forall₂ (SetterCall.Makes g) calls ds)
    {requests : List Request} (h : List.Forall₂ (SetterCall.StatedBy g) calls requests) :
    ∃ ds', List.Forall₂ (fun r d => r.check g = .ok d) requests ds' ∧
      List.Forall₂ Declaration.SameTexts ds ds' ∧ ((∀ r ∈ requests, SpellsRole g r) → ds = ds') := by
  induction h generalizing ds with
  | nil =>
    cases hds
    exact ⟨[], .nil, .nil, fun _ => rfl⟩
  | cons hr _ ih =>
    obtain ⟨d, rest, hd, hrest, rfl⟩ := List.forall₂_cons_left_iff.mp hds
    obtain ⟨d', hcheck, hsame, heq⟩ := hd.check hg hr
    obtain ⟨rest', hchecks, hsames, heqs⟩ := ih hrest
    refine ⟨d' :: rest', .cons hcheck hchecks, .cons hsame hsames, fun hspells => ?_⟩
    obtain ⟨hfirst, hothers⟩ := List.forall_mem_cons.mp hspells
    rw [heq hfirst, heqs hothers]

/-- Calls that declare something are stated by requests that spell the roles as they were registered. -/
theorem exists_stated {g : Graph} {calls : List SetterCall} {ds : List Declaration}
    (h : List.Forall₂ (SetterCall.Makes g) calls ds) :
    ∃ requests, List.Forall₂ (SetterCall.StatedBy g) calls requests ∧
      ∀ r ∈ requests, SpellsRole g r := by
  induction h with
  | nil => exact ⟨[], .nil, by simp⟩
  | cons hd _ ih =>
    obtain ⟨r, hr, hspells⟩ := hd.exists_statedBy
    obtain ⟨requests, hrequests, hall⟩ := ih
    exact ⟨r :: requests, .cons hr hrequests, List.forall_mem_cons.mpr ⟨hspells, hall⟩⟩

/-- The session in which a round is made the current one and published. -/
def adopting (s : Session) (id : RoundId) : Session :=
  s.publish (s.engine.compiler.adopt s.engine.graph id)

/-- A configuration that ends well adopts its round after the visits. -/
theorem run_configure {rules : List Rule} {s : Session} {reply : Reply}
    (h : (Command.run (.configure rules) s).1 = .ok reply) :
    let visits := ownVisits rules s
    visits.1 = .ok () ∧
      (Command.run (.configure rules) s).2 = (visits.2.1, visits.2.2.adopting s.ownRound) := by
  have hround : s.engine.compiler.stage.2 = s.ownRound := rfl
  unfold ownVisits ownCallback
  simp only [Command.run, hround] at h ⊢
  generalize visitAll _ s.engine.graph.names {} _ = visits at h ⊢
  obtain ⟨_ | ⟨⟩, trace, last⟩ := visits
  · contradiction
  · exact ⟨rfl, rfl⟩

/-- Dropping the declarations, making requests one by one and building. -/
def explicitCommands (requests : List Request) : List Command :=
  .step .clear :: (requests.map fun r => .step (.declare r)) ++ [.step .build]

/-- Explicit requests that are accepted come to recording what they declare in a new round and adopting
it. -/
theorem after_explicitCommands {s : Session} (hg : s.engine.graph.WellNamed) {requests : List Request}
    {ds : List Declaration}
    (h : List.Forall₂ (fun r d => r.check s.engine.graph = .ok d) requests ds) :
    s.after (explicitCommands requests) =
      ((s.withCompiler s.engine.compiler.stage.1).recordAllIn s.ownRound ds).adopting s.ownRound := by
  let cleared : Session := (s.withCompiler s.engine.compiler.stage.1).withCurrent s.ownRound
  have hrecorded : cleared.after (requests.map fun r => .step (.declare r)) =
      cleared.recordAllIn s.ownRound ds := after_declares (s := cleared) hg.names_nodup h
  rw [recordAllIn_withCurrent] at hrecorded
  rw [after, explicitCommands, List.foldl_append]
  change (Command.run (.step .build) (cleared.after _)).2.2 = _
  rw [hrecorded]
  rfl

/-- The callback form equals explicit declarations. At any moment, let a configuration end well whose
callback only calls setters, which it reaches by items. The callback was called once for every registered
entity, in the order of their registration. The actions of a call are those given by position, overridden
by those given by name. There are requests that state the calls one by one in the order made, each with
these actions and without a role on the subject. Whatever entities or names such requests are given by,
they are all accepted, and dropping the declarations, making the requests and building leaves the engine
with the declarations and the snapshot that the configuration leaves. If they say the role of a setter as
it was registered, the two sessions are the same, with the same warnings in the same order, but for the
number of visits. -/
theorem configure_states_calls {s : Session} (hs : s.Occurs) {rules : List Rule}
    (hrules : ∀ rule ∈ rules, rule.callsItem = true) {reply : Reply}
    (hreply : (Command.run (.configure rules) s).1 = .ok reply) :
    let ran := Command.run (.configure rules) s
    let g := s.engine.graph
    let calls := setterCalls g rules
    (ran.2.1.visited = g.names ∧ g.names.Nodup) ∧
    (∀ call ∈ calls, ∃ merged, call.entries = .ok merged ∧ call.Merges merged) ∧
    (∃ requests, List.Forall₂ (SetterCall.StatedBy g) calls requests ∧
      ∀ r ∈ requests, SpellsRole g r) ∧
    ∀ requests, List.Forall₂ (SetterCall.StatedBy g) calls requests →
      (∀ r ∈ requests, ∃ d, r.check g = .ok d) ∧
      ran.2.2.engine = (s.after (explicitCommands requests)).engine ∧
      ((∀ r ∈ requests, SpellsRole g r) →
        ran.2.2 = { s.after (explicitCommands requests) with visits := s.visits + g.size }) := by
  intro ran g calls
  have hg : g.WellNamed := hs.reached.sound.wellNamed
  let staged : Session := s.withCompiler s.engine.compiler.stage.1
  obtain ⟨hok, hran⟩ := run_configure hreply
  obtain ⟨ds, hds, hvisits⟩ := visitAll_ok hrules s.ownRound {} (s := staged) hg rfl
    (fun _ hname => hname) hs.orderly.views hok
  have hlast : ran.2 = ({ visited := g.names },
      ({ staged.recordAllIn s.ownRound ds with visits := s.visits + g.size } : Session).adopting
        s.ownRound) := by
    rw [← g.length_names]
    exact hran.trans (congrArg (fun left : Trace × Session => (left.1, left.2.adopting s.ownRound))
      hvisits)
  have hentries : ∀ call ∈ calls, ∃ merged, call.entries = .ok merged ∧ call.Merges merged := by
    refine ((List.forall₂_and_left _ _).mp (hds.imp fun call d hd => ⟨?_, hd⟩)).1
    obtain ⟨merged, hmerged, -⟩ := hd.actions
    exact ⟨merged, hmerged, SetterCall.merges_of_entries hmerged⟩
  refine ⟨⟨congrArg (fun left : Trace × Session => left.1.visited) hlast, hg.names_nodup⟩, hentries,
    exists_stated hds, fun requests hrequests => ?_⟩
  obtain ⟨ds', hchecks, hsames, heq⟩ := checks_of_stated hg hds hrequests
  have hexplicit : s.after (explicitCommands requests) =
      (staged.recordAllIn s.ownRound ds').adopting s.ownRound := after_explicitCommands hg hchecks
  have haccepted : ∀ r ∈ requests, ∃ d, r.check g = .ok d :=
    ((List.forall₂_and_left _ _).mp (hchecks.imp fun r d hr => ⟨⟨d, hr⟩, hr⟩)).1
  rw [hlast, hexplicit]
  refine ⟨haccepted, ?_, fun hspells => ?_⟩
  · have hrecorded : (staged.recordAllIn s.ownRound ds).engine =
        (staged.recordAllIn s.ownRound ds').engine := engine_recordAllIn rfl s.ownRound hsames
    exact congrArg (fun e : Engine => { e with compiler := e.compiler.adopt e.graph s.ownRound })
      hrecorded
  · rw [heq hspells]
    rfl

/-- The office with a desk in it. -/
def furnishedCommands : List Command :=
  officeCommands ++
    [.step (.register { kind := .product, name := .text "desk", parents := .each [.own "org"] })]

/-- A call for the admin of the office, for one subject or for all. -/
def adminRule (subject? : Option Value) (actions? : Option (List (Value × Value)))
    (named : List (Value × Value)) : Rule :=
  .mk subject? (.set (.text "org") (.text "admin") .item none
    (.ok (actions?.map .mapping, .mapping named)))

/-- Rules that let the admin write but not sign, which an argument by name says, and then call the
setter again: for the desk with another mapping and for the office with none. -/
def repeatingRules : List Rule :=
  [adminRule none (some [(.text "write", .bool true), (.text "sign", .bool true)])
      [(.text "sign", .bool false)],
    adminRule (some (.text "desk")) (some [(.text "write", .bool false)]) [],
    adminRule (some (.text "org")) none []]

/-- Four requests state the calls, and there are two warnings: for the office the later call replaces
the earlier one, for the desk it is ignored. -/
theorem configure_states_calls_office :
    let s := ({} : Session).after furnishedCommands
    let ran := Command.run (.configure repeatingRules) s
    s.Occurs ∧ (∀ rule ∈ repeatingRules, rule.callsItem = true) ∧ ran.1.isOk = true ∧
      ran.2.1.visited = ["org", "desk"] ∧
      (ran.2.2.records.filter fun record => record.level = .warning).length = 2 ∧
      ran.2.2.engine.compiler.published.defined.get? ⟨"org", "admin", "desk", none⟩ =
        some [("write", true), ("sign", false)] ∧
      ran.2.2.engine.compiler.published.defined.get? ⟨"org", "admin", "org", some "admin"⟩ = some [] ∧
      ∃ requests : List Request, requests.length = 4 ∧
        ran.2.2 = { s.after (explicitCommands requests) with visits := 2 } := by
  intro s ran
  have hs : s.Occurs := .ofCommands furnishedCommands
  have hrules : ∀ rule ∈ repeatingRules, rule.callsItem = true := by decide
  have hok : ran.1.isOk = true := by decide +kernel
  obtain ⟨reply, hreply⟩ := isOk_eq_true_iff.mp hok
  obtain ⟨⟨hvisited, -⟩, -, ⟨requests, hrequests, hspells⟩, hsame⟩ :=
    configure_states_calls hs hrules hreply
  have hcalls : (setterCalls s.engine.graph repeatingRules).length = 4 := by decide +kernel
  have hnames : s.engine.graph.names = ["org", "desk"] := by decide +kernel
  have hvisits : s.visits + s.engine.graph.size = 2 := by decide +kernel
  obtain ⟨-, -, hsession⟩ := hsame requests hrequests
  have hlast := hsession hspells
  have hran : Command.run (.configure repeatingRules) s = ran := rfl
  rw [hran] at hvisited hlast
  rw [hvisits] at hlast
  exact ⟨hs, hrules, hok, hvisited.trans hnames, by decide +kernel, by decide +kernel,
    by decide +kernel, requests, hrequests.length_eq.symm.trans hcalls, hlast⟩

end Session

end AccessMatrix
