import AccessMatrix.Proofs.Session.Moments

/-!
# Items and members

A callback reaches a role in the view of a context as an item or as a member. A view has members of
its own, and as a member one of them is found under its name. Under every other name both forms come
to the same setter or fail both, whatever the callback has made of the view. So callbacks that differ
in nothing but these forms do the same, rule by rule, and in nested configurations too.

As a view is handed to a callback, the setters of the registered roles are found in it. What is no
role fails as an item for the missing key, and as a member for the missing member.
-/

namespace AccessMatrix

open Outcome

namespace Policy

/-- Whether every view has a member of its own under a name. -/
def ContextView.isOwnMember (name : String) : Bool :=
  name = contextMember || name = settersMember || (ViewMember.named.lookup name).isSome

/-- A view holds what it was made with. -/
structure ContextView.AsMade (view : ContextView) : Prop where
  context : view.storedContext = .initial
  setters : view.storedSetters = .initial

section

variable {reach : Reach} {role : Value} {name : String} {label : Name}

/-- To refuse a member is to fail. -/
theorem ContextView.toOption_refuse {α : Type} (view : ContextView) (key : Value) :
    (view.refuse key : Except Misuse α).toOption = none := by
  rw [refuse]
  cases view.contextName <;> rfl

/-- What a view has under a key as an item it has as a member, where no member of its own is in the
way. -/
theorem ContextView.toOption_member (view : ContextView) (key : Value) :
    (view.member key).toOption = (view.item key).toOption := by
  rw [member]
  split
  · rename_i hsetters
    rw [item, hsetters, toOption_refuse, toOption_refuse]
  · split
    · rename_i hitem
      rw [hitem, toOption_refuse]
      rfl
    · rfl

theorem Reach.find_member (hname : role.asText? = some name) :
    reach.find .member role = reach.byMember name role := by
  rw [find, ViewUse.memberName, hname]
  rfl

/-- Under a name that no member of the view has, a member is looked for among the roles. -/
theorem Reach.byMember_of_not_own (hown : ContextView.isOwnMember name = false) (role : Value) :
    reach.byMember name role = (reach.view.member role).map reach.setter := by
  simp only [ContextView.isOwnMember, Bool.or_eq_false_iff, decide_eq_false_iff_not,
    Option.isSome_eq_false_iff, Option.isNone_iff_eq_none] at hown
  obtain ⟨⟨hcontext, hsetters⟩, hnamed⟩ := hown
  rw [byMember, ContextView.stored?, if_neg hcontext, if_neg hsetters, hnamed]

/-- Both forms come to the same setter or fail both, under every name that no member of the view
has. -/
theorem Reach.toOption_find (reach : Reach) (hname : role.asText? = some name)
    (hown : ContextView.isOwnMember name = false) (form : Form) :
    (reach.find form role).toOption = (reach.view.item role).toOption.map reach.setter := by
  cases form with
  | item => exact toOption_map _ _
  | member =>
    rw [find_member hname, byMember_of_not_own hown, toOption_map, ContextView.toOption_member]

/-- A view as it was made has its roles as items. -/
theorem ContextView.AsMade.item_eq {view : ContextView} (h : view.AsMade)
    (hname : role.asText? = some name) :
    view.item role = ((view.role? role).map fun label => Except.ok (.role label)).getD
      (.error (.noKey role)) := by
  have hkey : role.checkKey = .ok () := Request.checkKey_of_asText? hname
  rw [item, h.setters]
  simp only [hkey]
  cases view.role? role <;> rfl

/-- A view as it was made has its roles as members, where no member of its own is in the way. -/
theorem ContextView.AsMade.member_eq {view : ContextView} (h : view.AsMade)
    (hname : role.asText? = some name) :
    view.member role = ((view.role? role).map fun label => Except.ok (.role label)).getD
      (.error (.noRoleMember view.context.display role.display)) := by
  rw [member, h.setters, h.item_eq hname]
  cases view.role? role with
  | none =>
    simp only [Option.map_none, Option.getD_none, refuse, contextName, h.context]
    rfl
  | some label => rfl

section

variable (h : reach.view.AsMade) (hname : role.asText? = some name)

include h hname

/-- In a view as it was made the setter of a role is found as an item, and as a member where no member
of the view has the name. -/
theorem Reach.find_of_role (hrole : reach.view.role? role = some label) {form : Form}
    (hform : form = .item ∨ ContextView.isOwnMember name = false) :
    reach.find form role =
      .ok (.policy reach.round reach.made.context label reach.subject) := by
  cases form with
  | item =>
    rw [find, h.item_eq hname, hrole]
    rfl
  | member =>
    rw [find_member hname, byMember_of_not_own (hform.resolve_left nofun), h.member_eq hname, hrole]
    rfl

theorem Reach.find_item_of_no_role (hrole : reach.view.role? role = none) :
    reach.find .item role = .error (.noKey role) := by
  rw [find, h.item_eq hname, hrole]
  rfl

theorem Reach.find_member_of_no_role (hrole : reach.view.role? role = none)
    (hown : ContextView.isOwnMember name = false) :
    reach.find .member role =
      .error (.noRoleMember reach.view.context.display role.display) := by
  rw [find_member hname, byMember_of_not_own hown, h.member_eq hname, hrole]
  rfl

end

end

end Policy

namespace Session

open Policy (ContextView Form Setter)

mutual

/-- Two commands are the same but for the forms in which their callbacks reach setters. -/
inductive Command.SameButForms : Command → Command → Prop
  | step (step : Step) : Command.SameButForms (.step step) (.step step)
  | configure {rules rules' : List Rule} (h : Rule.AllSameButForms rules rules') :
      Command.SameButForms (.configure rules) (.configure rules')
  | forEachSubject {rules rules' : List Rule} (h : Rule.AllSameButForms rules rules') :
      Command.SameButForms (.forEachSubject rules) (.forEachSubject rules')

/-- Two callbacks are the same but for the forms in which they reach setters. -/
inductive Rule.AllSameButForms : List Rule → List Rule → Prop
  | nil : Rule.AllSameButForms [] []
  | cons {subject? : Option Value} {task task' : Task} {rest rest' : List Rule}
      (h : Task.SameButForms task task') (hrest : Rule.AllSameButForms rest rest') :
      Rule.AllSameButForms (.mk subject? task :: rest) (.mk subject? task' :: rest')

/-- Two tasks are the same but for the forms in which they reach setters. A setter can be reached in
either form under a name that no member of a view has. What fails for a missing role fails for another
reason in the other form, so a task that catches failures has to catch all of them, or none, up to
interruptions. -/
inductive Task.SameButForms : Task → Task → Prop
  | same (task : Task) : Task.SameButForms task task
  | set {context role : Value} {form form' : Form} {keep? : Option Value} {given : Given}
      {name : String} (hname : role.asText? = some name)
      (hown : ContextView.isOwnMember name = false) :
      Task.SameButForms (.set context role form keep? given) (.set context role form' keep? given)
  | run {command command' : Command} (h : Command.SameButForms command command') :
      Task.SameButForms (.run command) (.run command')
  | attempt {caught : Error → Bool} {body body' handler handler' : List Rule}
      (hcaught : ∀ e e', e.isInterruption = false → e'.isInterruption = false → caught e = caught e')
      (hbody : Rule.AllSameButForms body body') (hhandler : Rule.AllSameButForms handler handler') :
      Task.SameButForms (.attempt caught body handler) (.attempt caught body' handler')

end

/-- Two failures are the same, or neither is an interruption. -/
def SameFailure (e e' : Error) : Prop :=
  e' = e ∨ e.isInterruption = false ∧ e'.isInterruption = false

/-- Two results are the same, or failures both, and then no interruptions. -/
inductive SameResult {α : Type} : Except Error α → Except Error α → Prop
  | ok (a : α) : SameResult (.ok a) (.ok a)
  | error {e e' : Error} (h : SameFailure e e') : SameResult (.error e) (.error e')

theorem SameResult.refl {α : Type} : (result : Except Error α) → SameResult result result
  | .ok a => .ok a
  | .error _ => .error (.inl rfl)

/-- Two runs fail both or answer the same, and they leave the same, what they visited and saw
included. -/
structure SameRun {α : Type} (r r' : Except Error α × Trace × Session) : Prop where
  result : SameResult r.1 r'.1
  left : r'.2 = r.2

theorem SameRun.refl {α : Type} (r : Except Error α × Trace × Session) : SameRun r r :=
  ⟨.refl _, rfl⟩

/-- Runs that are the same end well both, or fail both. -/
theorem SameRun.ends {α : Type} {r r' : Except Error α × Trace × Session} (h : SameRun r r') :
    (∃ a trace s, r = (.ok a, trace, s) ∧ r' = (.ok a, trace, s)) ∨
    ∃ e e' trace s, r = (.error e, trace, s) ∧ r' = (.error e', trace, s) ∧ SameFailure e e' := by
  obtain ⟨result, trace, s⟩ := r
  obtain ⟨result', trace', s'⟩ := r'
  obtain ⟨hresult, hleft⟩ := h
  cases hleft
  cases hresult with
  | ok a => exact .inl ⟨a, trace, s, rfl, rfl⟩
  | error h => exact .inr ⟨_, _, trace, s, rfl, rfl, h⟩

/-- What a callback leaves is an interruption just if it failed with one. -/
theorem isInterruption_callbackError (subject : Name) (e : Error) :
    (callbackError subject e).isInterruption = e.isInterruption := by
  rw [callbackError]
  split
  · rfl
  · rename_i hplain
    simp only [Bool.or_eq_true, not_or, Bool.not_eq_true] at hplain
    rw [hplain.2]
    split <;> rfl

theorem SameFailure.callback {e e' : Error} (h : SameFailure e e') (subject : Name) :
    SameFailure (callbackError subject e) (callbackError subject e') := by
  obtain rfl | ⟨he, he'⟩ := h
  · exact .inl rfl
  · exact .inr ⟨(isInterruption_callbackError subject e).trans he,
      (isInterruption_callbackError subject e').trans he'⟩

section

variable {s : Session} {call : Call} {context role : Value} {contextName name : String}

/-- A callback reaches a setter first, and then calls or keeps it. -/
theorem Call.set_eq_bind (form : Form) (keep? : Option Value) (given : Given) :
    call.set s context role form keep? given = (do
      let setter ← Error.ofMisuse (call.setter s context role form)
      match keep? with
      | some label => return { s with kept := ← putAside s.kept label setter }
      | none =>
        let (value?, named) ← given
        s.callSetter setter value? named) := by
  rw [set, setter]
  cases call.find s context <;> rfl

/-- A callback that does not reach a setter fails. -/
theorem Call.set_of_setter_eq_error {form : Form} {misuse : Misuse}
    (h : call.setter s context role form = .error misuse) (keep? : Option Value) (given : Given) :
    call.set s context role form keep? given = .error (.misuse misuse) := by
  rw [set_eq_bind, h]
  rfl

/-- A callback does the same with a setter in whichever form it reaches it, under every name that no
member of a view has. -/
theorem Call.sameResult_set (hname : role.asText? = some name)
    (hown : ContextView.isOwnMember name = false) (form form' : Form) (keep? : Option Value)
    (given : Given) :
    SameResult (call.set s context role form keep? given)
      (call.set s context role form' keep? given) := by
  have hsetter : (call.setter s context role form').toOption =
      (call.setter s context role form).toOption := by
    rw [setter, setter]
    cases call.find s context with
    | error e => rfl
    | ok reach =>
      exact (reach.toOption_find hname hown form').trans
        (reach.toOption_find hname hown form).symm
  cases hfound : call.setter s context role form <;>
    cases hfound' : call.setter s context role form' <;>
    simp [hfound, hfound', Except.toOption] at hsetter
  · rw [Call.set_of_setter_eq_error hfound, Call.set_of_setter_eq_error hfound']
    exact .error (.inr ⟨rfl, rfl⟩)
  · rw [set_eq_bind, set_eq_bind form', hfound, hfound', hsetter]
    exact .refl _

/-- A callback that looks at a context which it sees reaches its setters there, under any value that
names the context. -/
theorem Call.setter_eq_find (hcontext : context.asText? = some contextName)
    (hmem : contextName ∈ call.contexts) (form : Form) :
    call.setter s context role form = (call.reach s contextName).find form role := by
  rw [setter, find, Policy.Request.checkKey_of_asText? hcontext, hcontext, Option.filter_some]
  simp only [hmem, decide_true, if_true]
  rfl

/-- As long as nothing altered a view it is as it was made. -/
theorem Call.view_reach (hview : s.views.get? ⟨call.visit, contextName⟩ = none) :
    (call.reach s contextName).view = freshView s.engine.graph contextName := by
  rw [reach, hview]
  rfl

end

/-- Callbacks that run alike for every subject run alike for one after the other. -/
theorem sameRun_visitAll {callback callback' : String → Nat → Trace → Session → Visit}
    (h : ∀ subject visit trace s,
      SameRun (callback subject visit trace s) (callback' subject visit trace s))
    (subjects : List String) (trace : Trace) (s : Session) :
    SameRun (visitAll callback subjects trace s) (visitAll callback' subjects trace s) := by
  induction subjects generalizing trace s with
  | nil => exact .refl _
  | cons subject rest ih =>
    rw [visitAll, visitAll]
    obtain ⟨_, trace, next, hvisit, hvisit'⟩ | ⟨e, e', trace, next, hvisit, hvisit', hsame⟩ :=
      (h subject s.visits { trace with visited := trace.visited ++ [subject] }
        { s with visits := s.visits + 1 }).ends
    · rw [hvisit, hvisit']
      exact ih trace next
    · rw [hvisit, hvisit']
      exact ⟨.error (hsame.callback _), rfl⟩

mutual

/-- Commands that are the same but for the forms run alike. -/
theorem Command.SameButForms.run {command command' : Command} :
    Command.SameButForms command command' → ∀ s : Session,
      SameRun (Command.run command s) (Command.run command' s)
  | .step step, s => .refl _
  | .configure h, s => by
    rw [Command.run, Command.run]
    obtain ⟨_, trace, next, hvisits, hvisits'⟩ | ⟨e, e', trace, next, hvisits, hvisits', hsame⟩ :=
      (sameRun_visitAll (fun subject visit trace next => h.follow ⟨s.engine.compiler.stage.2,
        s.engine.graph.contexts.map Entity.name, subject, visit⟩ trace next)
        s.engine.graph.names {} (s.withCompiler s.engine.compiler.stage.1)).ends
    · simp only [hvisits, hvisits']
      exact .refl _
    · simp only [hvisits, hvisits']
      exact ⟨.error hsame, rfl⟩
  | .forEachSubject h, s => by
    rw [Command.run, Command.run]
    obtain ⟨_, trace, next, hvisits, hvisits'⟩ | ⟨e, e', trace, next, hvisits, hvisits', hsame⟩ :=
      (sameRun_visitAll (fun subject visit trace next => h.follow ⟨s.engine.compiler.current,
        s.engine.graph.contexts.map Entity.name, subject, visit⟩ trace next)
        s.engine.graph.names {} s).ends
    · simp only [hvisits, hvisits']
      exact .refl _
    · simp only [hvisits, hvisits']
      exact ⟨.error hsame, rfl⟩

/-- Rules that are the same but for the forms are followed alike. -/
theorem Rule.AllSameButForms.follow {rules rules' : List Rule} :
    Rule.AllSameButForms rules rules' → ∀ (call : Call) (trace : Trace) (s : Session),
      SameRun (Rule.followAll rules call trace s) (Rule.followAll rules' call trace s)
  | .nil, call, trace, s => .refl _
  | .cons h hrest, call, trace, s => by
    rw [Rule.followAll, Rule.followAll, Rule.follow, Rule.follow]
    split_ifs
    · obtain ⟨_, trace, next, htask, htask'⟩ | ⟨e, e', trace, next, htask, htask', hsame⟩ :=
        (h.perform call trace s).ends
      · rw [htask, htask']
        exact hrest.follow call trace next
      · rw [htask, htask']
        exact ⟨.error hsame, rfl⟩
    · exact hrest.follow call trace s

/-- Tasks that are the same but for the forms are done alike. -/
theorem Task.SameButForms.perform {task task' : Task} :
    Task.SameButForms task task' → ∀ (call : Call) (trace : Trace) (s : Session),
      SameRun (Task.perform task call trace s) (Task.perform task' call trace s)
  | .same task, call, trace, s => .refl _
  | @Task.SameButForms.set context role form form' keep? given _ hname hown, call, trace, s => by
    have hset : SameResult (call.set s context role form keep? given)
        (call.set s context role form' keep? given) :=
      Call.sameResult_set hname hown form form' keep? given
    rw [Task.perform, Task.perform]
    generalize call.set s context role form keep? given = result,
      call.set s context role form' keep? given = result' at hset ⊢
    cases hset with
    | ok next => exact .refl _
    | error hsame => exact ⟨.error hsame, rfl⟩
  | .run h, call, trace, s => by
    rw [Task.perform, Task.perform]
    obtain ⟨reply, _, next, hrun, hrun'⟩ | ⟨e, e', _, next, hrun, hrun', hsame⟩ := (h.run s).ends
    · rw [hrun, hrun']
      exact .refl _
    · rw [hrun, hrun']
      exact ⟨.error hsame, rfl⟩
  | @Task.SameButForms.attempt caught _ _ _ _ hcaught hbody hhandler, call, trace, s => by
    rw [Task.perform, Task.perform]
    obtain ⟨_, trace, next, htried, htried'⟩ | ⟨e, e', trace, next, htried, htried', hsame⟩ :=
      (hbody.follow call trace s).ends
    · rw [htried, htried']
      exact .refl _
    · have hboth : caught e' = caught e := by
        obtain rfl | ⟨he, he'⟩ := hsame
        · rfl
        · exact hcaught e' e he' he
      rw [htried, htried']
      simp only [hboth]
      split
      · exact hhandler.follow call trace next
      · exact ⟨.error hsame, rfl⟩

end

/-- A view as it was made has all its own members, and none of them declares anything. -/
theorem exists_byMember_of_own {reach : Policy.Reach} {name : String} (h : reach.view.AsMade)
    (hown : ContextView.isOwnMember name = true) (role : Value) :
    ∃ setter, reach.byMember name role = .ok setter ∧ roundOf? setter = none := by
  rw [Policy.Reach.byMember]
  by_cases hcontext : name = ContextView.contextMember
  · rw [ContextView.stored?, if_pos hcontext, h.context]
    refine ⟨_, rfl, ?_⟩
    rw [if_pos hcontext]
    rfl
  by_cases hsetters : name = ContextView.settersMember
  · rw [ContextView.stored?, if_neg hcontext, if_pos hsetters, h.setters]
    refine ⟨_, rfl, ?_⟩
    rw [if_neg hcontext]
    rfl
  simp only [ContextView.isOwnMember, hcontext, hsetters, decide_false, Bool.false_or,
    Option.isSome_iff_exists] at hown
  obtain ⟨m, hm⟩ := hown
  rw [ContextView.stored?, if_neg hcontext, if_neg hsetters, hm]
  refine ⟨_, rfl, ?_⟩
  rw [Policy.Reach.ofMember]
  split <;> rfl

/-- No view of the next visit was altered, at any moment of a session. -/
theorem Occurs.get?_views {s : Session} (h : s.Occurs) (contextName : String) :
    s.views.get? ⟨s.visits, contextName⟩ = none := by
  rw [Table.get?, Option.map_eq_none_iff, List.find?_eq_none]
  intro entry hentry hid
  have hbefore : entry.1.visit < s.visits := h.orderly.views entry hentry
  rw [of_decide_eq_true hid] at hbefore
  exact Nat.lt_irrefl _ hbefore

/-- A rule that lets the admin write, through a member. -/
def writeMemberRule : Rule :=
  .mk none (.set (.text "org") (.text "admin") .member none
    (.ok (some (.mapping [(.text "write", .bool true)]), .mapping [])))

/-- An office with a role under the name of a member that every view has. -/
def hiddenRoleCommands : List Command :=
  [.step (.register { kind := .context, name := .text "org", roles := .ofTexts ["get"] })]

/-- A rule that calls what the view has under a name with one argument by name, a switch. -/
def switchRule (role : String) (form : Form) : Rule :=
  .mk none (.set (.text "org") (.text role) form none
    (.ok (none, .mapping [(.text "key", .bool true)])))

/-- A rule that calls what the view has under a name without arguments. -/
def bareRule (role : String) (form : Form) : Rule :=
  .mk none (.set (.text "org") (.text role) form none (.ok (none, .mapping [])))

/-- A rule that erases the context of a view. -/
def eraseRule : Rule :=
  .mk none (.set (.text "org") (.text "__delattr__") .member none
    (.ok (some (.text "context"), .mapping [])))

end Session

end AccessMatrix
