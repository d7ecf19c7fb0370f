import AccessMatrix.Policy.Compiler
import AccessMatrix.Proofs.Graph.WellNamed
import Mathlib.Data.List.Forall2

/-!
# Requests that are accepted

A request is checked part by part, in an order that decides which error is reported. Whether it is
accepted does not rest on the order. It is exactly if its references mean registered entities, its roles
are theirs, and its actions are a mapping from names to switches; and what is declared then is told from
the request.
-/

namespace AccessMatrix

open Outcome

/-- A reference means a registered entity: it is the entity, or a name that is the entity's own. -/
def Ref.Means (g : Graph) (ref : Ref) (e : Entity) : Prop :=
  e ∈ g.entities ∧ (ref = .own e.name ∨ ∃ v, ref = .value v ∧ v.asText? = some e.name)

/-- What a reference means is what it is resolved to. -/
theorem Ref.means_iff {g : Graph} (hg : g.names.Nodup) {ref : Ref} {e : Entity} :
    ref.Means g e ↔ g.refersTo ref = some e := by
  rw [Ref.Means]
  cases ref with
  | own name => simp [Graph.refersTo, Graph.find?_eq_some_iff hg, eq_comm]
  | foreign name => simp [Graph.refersTo]
  | value v =>
    simp only [Graph.refersTo, Graph.named?, Option.bind_eq_some_iff, Graph.find?_eq_some_iff hg]
    aesop

/-- A reference that can be given for an entity: one that is registered here, one of another graph,
which has a name there, or a name. -/
inductive Ref.Given (g : Graph) : Ref → Prop where
  | own (name : String) (h : name ∈ g.names) : Ref.Given g (.own name)
  | foreign (name : String) (h : name ≠ "") : Ref.Given g (.foreign name)
  | value (v : Value) (name : String) (h : v.asText? = some name) : Ref.Given g (.value v)

namespace Policy

/-- An entry of an action map and what it declares: a name that is not empty, and whether it is
allowed. A truth value says so itself, and of the integers zero alone does not allow. -/
structure Switches (entry : Value × Value) (declared : Name × Bool) : Prop where
  action : declared.1.toValue = entry.1
  named : declared.1.text ≠ ""
  switch : entry.2 = .bool declared.2 ∨ ∃ n : Int, entry.2 = .int n ∧ (declared.2 = true ↔ n ≠ 0)

theorem switch?_eq_some_iff {value : Value} {allowed : Bool} :
    switch? value = some allowed ↔
      value = .bool allowed ∨ ∃ n : Int, value = .int n ∧ (allowed = true ↔ n ≠ 0) := by
  cases value <;> cases allowed <;> simp [switch?]

theorem asName?_eq_some_iff {value : Value} {name : Name} :
    value.asName? = some name ↔ name.toValue = value ∧ name.text ≠ "" := by
  rw [Value.asName?, Option.filter_eq_some_iff, decide_eq_true_iff]
  refine and_congr_left fun _ => ⟨Name.toValue_of_ofValue?, ?_⟩
  intro h
  rw [← h, Name.ofValue?_toValue]

/-- An action map declares entry by entry. -/
theorem checkEntries_eq_ok_iff {entries : List (Value × Value)} {declared : Declared} :
    checkEntries entries = .ok declared ↔ List.Forall₂ Switches entries declared := by
  induction entries generalizing declared with
  | nil => simp [checkEntries, eq_comm]
  | cons entry rest ih =>
    obtain ⟨action, value⟩ := entry
    rw [checkEntries, List.forall₂_cons_left_iff]
    constructor
    · intro h
      cases hname : action.asName? with
      | none => simp [hname] at h
      | some name =>
        cases hswitch : switch? value with
        | none => simp [hname, hswitch] at h
        | some allowed =>
          simp only [hname, hswitch] at h
          obtain ⟨others, hothers, rfl⟩ := map_eq_ok.mp h
          obtain ⟨htoValue, hnamed⟩ := asName?_eq_some_iff.mp hname
          exact ⟨_, _, ⟨htoValue, hnamed, switch?_eq_some_iff.mp hswitch⟩, ih.mp hothers, rfl⟩
    · intro h
      obtain ⟨⟨name, allowed⟩, others, hfirst, hothers, rfl⟩ := h
      rw [asName?_eq_some_iff.mpr ⟨hfirst.action, hfirst.named⟩,
        switch?_eq_some_iff.mpr hfirst.switch, ih.mpr hothers]
      rfl

/-- An entry that can be declared: its key is a text that is not empty, and its value is a truth value
or an integer. -/
structure ValidEntry (entry : Value × Value) : Prop where
  action : ∃ name, entry.1.asText? = some name ∧ name ≠ ""
  switch : (∃ b, entry.2 = .bool b) ∨ ∃ n, entry.2 = .int n

/-- The valid entries are those that declare something. -/
theorem validEntry_iff {entry : Value × Value} :
    ValidEntry entry ↔ ∃ declared, Switches entry declared := by
  obtain ⟨action, value⟩ := entry
  constructor
  · intro h
    obtain ⟨⟨text, htext, hnamed⟩, hswitch⟩ := h
    rw [← Name.map_text_ofValue?] at htext
    obtain ⟨name, hname, rfl⟩ := Option.map_eq_some_iff.mp htext
    have htoValue := Name.toValue_of_ofValue? hname
    rcases hswitch with ⟨b, hb⟩ | ⟨n, hn⟩
    · exact ⟨(name, b), htoValue, hnamed, .inl hb⟩
    · exact ⟨(name, n != 0), htoValue, hnamed, .inr ⟨n, hn, by simp⟩⟩
  · intro h
    obtain ⟨⟨name, allowed⟩, haction, hnamed, hswitch⟩ := h
    refine ⟨⟨name.text, ?_, hnamed⟩, ?_⟩
    · rw [← haction, ← Name.map_text_ofValue?, Name.ofValue?_toValue, Option.map_some]
    · exact hswitch.imp (fun h => ⟨allowed, h⟩) fun ⟨n, hn, _⟩ => ⟨n, hn⟩

/-- Entries that are all valid declare something together, and others do not. -/
theorem forall_validEntry_iff {entries : List (Value × Value)} :
    (∀ entry ∈ entries, ValidEntry entry) ↔
      ∃ declared, List.Forall₂ Switches entries declared := by
  induction entries with
  | nil => simp
  | cons entry rest ih =>
    rw [List.forall_mem_cons, ih, validEntry_iff]
    constructor
    · intro h
      obtain ⟨⟨first, hfirst⟩, others, hothers⟩ := h
      exact ⟨first :: others, .cons hfirst hothers⟩
    · intro h
      obtain ⟨declared, h⟩ := h
      obtain ⟨first, others, hfirst, hothers, rfl⟩ := List.forall₂_cons_left_iff.mp h
      exact ⟨⟨first, hfirst⟩, others, hothers⟩

theorem checkActions_eq_ok_iff {actions : Value} {declared : Declared} :
    checkActions actions = .ok declared ↔
      ∃ entries, actions = .mapping entries ∧ List.Forall₂ Switches entries declared := by
  cases actions <;> simp [checkActions, checkEntries_eq_ok_iff]

namespace Request

/-- The valid requests for a context and a subject: the references mean them, the first is a context
that has the role, a role on the subject that is given is none or one of the subject's, over the
context itself it is the declared one, and the actions are a mapping of valid entries. -/
structure Valid (g : Graph) (r : Request) (context subject : Entity) : Prop where
  context_means : r.context.Means g context
  isContext : context.isContext = true
  role : ∃ role ∈ context.roles, r.role.asText? = some role
  subject_means : r.subject.Means g subject
  subjectRole : ∀ value, r.subjectRole? = some value →
    value = .null ∨ ∃ role ∈ subject.roles, value.asText? = some role
  ownRole : context.name = subject.name → ∀ value, r.subjectRole? = some value →
    value.asText? = r.role.asText?
  actions : ∃ entries, r.actions = .mapping entries ∧ ∀ entry ∈ entries, ValidEntry entry

/-- The scope of a request: every role on the subject, or the one that is given, or none. -/
def scope (r : Request) : Scope :=
  match r.subjectRole? with
  | none => .every
  | some value => .only (Name.ofValue? value)

/-- What a request declares of a context over a subject: the entities as they were registered, the
roles as the request spells them, and the actions entry by entry. -/
structure Declares (r : Request) (context subject : Entity) (d : Declaration) : Prop where
  context_label : d.context = context.label
  role : d.role.toValue = r.role
  subject_label : d.subject = subject.label
  scope : d.scope = r.scope
  actions : ∃ entries, r.actions = .mapping entries ∧ List.Forall₂ Switches entries d.actions

variable {g : Graph}

/-- A reference is resolved to what it refers to, or refused for its name; a value has to be fit for
a key. -/
theorem resolve_eq {ref : Ref} (hkey : ∀ v, ref = .value v → v.checkKey = .ok ()) :
    resolve g ref =
      match g.refersTo ref with
      | some e => .ok e
      | none => .error (.policy (.unresolved ref.label)) := by
  have hrequire : g.require ref =
      match g.refersTo ref with
      | some e => .ok e
      | none => .error (.graph (.unknownEntity ref.label)) := by
    cases ref with
    | value v =>
      simp only [Graph.require, hkey v rfl]
      rfl
    | _ => rfl
  rw [resolve, hrequire]
  cases g.refersTo ref <;> rfl

/-- A text is fit for a key. -/
theorem checkKey_of_asText? {v : Value} {name : String} (h : v.asText? = some name) :
    v.checkKey = .ok () := by
  cases v <;> first | rfl | contradiction

/-- A reference is resolved to the entity that it means. -/
theorem resolve_eq_ok_iff (hg : g.names.Nodup) {ref : Ref} {e : Entity} :
    resolve g ref = .ok e ↔ ref.Means g e := by
  rw [Ref.means_iff hg]
  constructor
  · intro h
    have hkey : ∀ v, ref = .value v → v.checkKey = .ok () := by
      intro v hv
      subst hv
      cases hcheck : v.checkKey with
      | error misuse =>
        have hrequire : g.require (.value v) = .error (.misuse misuse) := by
          simp only [Graph.require, hcheck]
          rfl
        simp [resolve, hrequire] at h
      | ok _ => rfl
    rw [resolve_eq hkey] at h
    split at h
    · rename_i found hfound
      rw [hfound, Except.ok.inj h]
    · contradiction
  · intro h
    have hkey : ∀ v, ref = .value v → v.checkKey = .ok () := by
      intro v hv
      subst hv
      obtain ⟨name, hname, -⟩ := Option.bind_eq_some_iff.mp h
      exact checkKey_of_asText? hname
    rw [resolve_eq hkey, h]

/-- A value names a role of an entity if its text is one, and the role is spelled like the value. -/
theorem roleOf_eq_some_iff {e : Entity} {value : Value} {role : Name} :
    roleOf e value = some role ↔ role.toValue = value ∧ role.text ∈ e.roles := by
  rw [roleOf, Option.filter_eq_some_iff, decide_eq_true_iff]
  refine and_congr_left fun _ => ⟨Name.toValue_of_ofValue?, ?_⟩
  intro h
  rw [← h, Name.ofValue?_toValue]

/-- The text of a name is that of its value. -/
theorem asText?_toValue (name : Name) : name.toValue.asText? = some name.text := by
  rw [← Name.map_text_ofValue?, Name.ofValue?_toValue, Option.map_some]

/-- A value names some role of an entity exactly if its text is one. -/
theorem exists_roleOf_iff {e : Entity} {value : Value} :
    (∃ role, roleOf e value = some role) ↔ ∃ role ∈ e.roles, value.asText? = some role := by
  constructor
  · intro h
    obtain ⟨role, h⟩ := h
    obtain ⟨rfl, hrole⟩ := roleOf_eq_some_iff.mp h
    exact ⟨role.text, hrole, asText?_toValue role⟩
  · intro h
    obtain ⟨text, hrole, htext⟩ := h
    rw [← Name.map_text_ofValue?] at htext
    obtain ⟨role, hname, rfl⟩ := Option.map_eq_some_iff.mp htext
    exact ⟨role, roleOf_eq_some_iff.mpr ⟨Name.toValue_of_ofValue? hname, hrole⟩⟩

/-- A scope is accepted exactly if it is none or a role of the subject, and over the context itself the
declared role. -/
theorem checkScope_eq_ok_iff {context subject : Entity} {role : Name} {r : Request} {scope : Scope} :
    checkScope context role subject r.subjectRole? = .ok scope ↔
      (∀ value, r.subjectRole? = some value →
        value = .null ∨ ∃ role ∈ subject.roles, value.asText? = some role) ∧
      (context.name = subject.name → ∀ value, r.subjectRole? = some value →
        value.asText? = some role.text) ∧
      scope = r.scope := by
  rw [Request.scope]
  cases r.subjectRole? with
  | none => simp [checkScope, eq_comm]
  | some value =>
    have hown (found : Option Name) (hfound : Name.ofValue? value = found) :
        (if context.name = subject.name && found.map Name.text ≠ some role.text then
            Except.error (PolicyError.otherRoleOfSelf context.label role.toValue value)
          else .ok (.only found)) = .ok scope ↔
        (context.name = subject.name → value.asText? = some role.text) ∧ scope = .only found := by
      rw [← Name.map_text_ofValue?, hfound]
      by_cases hself : context.name = subject.name
      · by_cases hsame : found.map Name.text = some role.text <;> simp [hself, hsame, eq_comm]
      · simp [hself, eq_comm]
    simp only [Option.some.injEq, forall_eq']
    by_cases hnull : value = .null
    · subst hnull
      simpa [checkScope, Except.bind, Name.ofValue?] using hown none rfl
    rw [← exists_roleOf_iff, or_iff_right hnull]
    cases hrole : roleOf subject value with
    | none => simp [checkScope, hrole, Except.bind]
    | some found =>
      have hfound : Name.ofValue? value = some found := by
        rw [← (roleOf_eq_some_iff.mp hrole).1, Name.ofValue?_toValue]
      rw [hfound]
      simpa [checkScope, hrole, Except.bind, hnull] using hown (some found) hfound

/-- What is checked of a request once its references are resolved. -/
theorem check_of_resolved {r : Request} {context subject : Entity} (hcontext : resolve g r.context = .ok context)
    (hsubject : resolve g r.subject = .ok subject) :
    r.check g =
      if context.isContext then
        match roleOf context r.role with
        | none => .error (.policy (.noRole context.label r.role))
        | some role => do
          let scope ← (checkScope context role subject r.subjectRole?).mapError Error.policy
          let actions ← (checkActions r.actions).mapError Error.policy
          return { context := context.label, role, subject := subject.label, scope, actions }
      else .error (.policy (.notContext context.label)) := by
  rw [check, hcontext, hsubject]
  cases hisContext : context.isContext with
  | false => simp [hisContext, bind, Except.bind, throw, throwThe, MonadExceptOf.throw]
  | true =>
    cases hrole : roleOf context r.role with
    | none => simp [hisContext, hrole, bind, Except.bind, throw, throwThe, MonadExceptOf.throw]
    | some role => simp [hisContext, hrole, bind, Except.bind]

/-- A request is accepted exactly if it is valid for the entities that it means, and then declares what
it says of them. -/
theorem check_eq_ok_iff (hg : g.names.Nodup) {r : Request} {d : Declaration} :
    r.check g = .ok d ↔
      ∃ context subject, r.Valid g context subject ∧ r.Declares context subject d := by
  constructor
  · intro h
    obtain ⟨context, hcontext, hrest⟩ := bind_eq_ok.mp h
    obtain ⟨subject, hsubject, -⟩ := bind_eq_ok.mp hrest
    rw [check_of_resolved hcontext hsubject] at h
    split at h
    rotate_left
    · contradiction
    rename_i hisContext
    split at h
    · contradiction
    rename_i role hrole
    obtain ⟨scope, hscope, h⟩ := bind_eq_ok.mp h
    obtain ⟨actions, hactions, h⟩ := bind_eq_ok.mp h
    obtain rfl := pure_eq_ok.mp h
    obtain ⟨hsubjectRole, hown, hscope⟩ := checkScope_eq_ok_iff.mp (mapError_eq_ok.mp hscope)
    obtain ⟨entries, hentries, hdeclared⟩ := checkActions_eq_ok_iff.mp (mapError_eq_ok.mp hactions)
    obtain ⟨hspelled, -⟩ := roleOf_eq_some_iff.mp hrole
    refine ⟨context, subject, ?_, rfl, hspelled, rfl, hscope, entries, hentries, hdeclared⟩
    exact {
      context_means := (resolve_eq_ok_iff hg).mp hcontext
      isContext := hisContext
      role := exists_roleOf_iff.mp ⟨role, hrole⟩
      subject_means := (resolve_eq_ok_iff hg).mp hsubject
      subjectRole := hsubjectRole
      ownRole := hspelled ▸ asText?_toValue role ▸ hown
      actions := ⟨entries, hentries, forall_validEntry_iff.mpr ⟨actions, hdeclared⟩⟩ }
  · intro h
    obtain ⟨context, subject, hvalid, hdeclares⟩ := h
    obtain ⟨role, hrole⟩ := exists_roleOf_iff.mpr hvalid.role
    obtain ⟨hspelled, -⟩ := roleOf_eq_some_iff.mp hrole
    have hscope : checkScope context role subject r.subjectRole? = .ok r.scope :=
      checkScope_eq_ok_iff.mpr ⟨hvalid.subjectRole,
        asText?_toValue role ▸ hspelled ▸ hvalid.ownRole, rfl⟩
    have hactions := checkActions_eq_ok_iff.mpr hdeclares.actions
    have hsame : d.role = role := by
      have hname := Name.ofValue?_toValue d.role
      rw [hdeclares.role, ← hspelled, Name.ofValue?_toValue] at hname
      exact (Option.some.inj hname).symm
    rw [check_of_resolved ((resolve_eq_ok_iff hg).mpr hvalid.context_means)
      ((resolve_eq_ok_iff hg).mpr hvalid.subject_means), if_pos hvalid.isContext, hrole]
    simp only [hscope, hactions]
    obtain ⟨label, spelled, subjectLabel, scope, actions⟩ := d
    obtain ⟨rfl, -, rfl, rfl, -⟩ := hdeclares
    obtain rfl : spelled = role := hsame
    rfl

/-- A valid request declares something. -/
theorem Valid.declares {r : Request} {context subject : Entity} (h : r.Valid g context subject) :
    ∃ d, r.Declares context subject d := by
  obtain ⟨role, hrole⟩ := exists_roleOf_iff.mpr h.role
  obtain ⟨entries, hentries, hvalid⟩ := h.actions
  obtain ⟨declared, hdeclared⟩ := forall_validEntry_iff.mp hvalid
  exact ⟨⟨context.label, role, subject.label, r.scope, declared⟩, rfl,
    (roleOf_eq_some_iff.mp hrole).1, rfl, rfl, entries, hentries, hdeclared⟩

/-- A value that can be given in place of an entity is fit to be looked up. -/
theorem checkKey_of_given {ref : Ref} (h : ref.Given g) : ∀ v, ref = .value v → v.checkKey = .ok () := by
  intro v hv
  subst hv
  cases h with
  | value _ name h => exact checkKey_of_asText? h

/-- The values that a request gives for roles can be written. -/
def Written (r : Request) : Prop :=
  r.role.hasText = true ∧ ∀ value, r.subjectRole? = some value → value.hasText = true

/-- A reference that can be given is refused as a policy is, and the refusal can be written. -/
theorem resolve_eq_error {ref : Ref} (href : ref.Given g) {e : Error} (h : resolve g ref = .error e) :
    ∃ cause, e = .policy cause ∧ cause.hasText = true := by
  rw [resolve_eq (checkKey_of_given href)] at h
  split at h
  · contradiction
  · refine ⟨_, (Except.error.inj h).symm, ?_⟩
    cases href with
    | own name _ | foreign name _ => rfl
    | value v name hname => cases v <;> first | rfl | contradiction

/-- Entries are refused for reasons that can be written. -/
theorem hasText_of_checkEntries {entries : List (Value × Value)} {cause : PolicyError}
    (h : checkEntries entries = .error cause) : cause.hasText = true := by
  induction entries with
  | nil => contradiction
  | cons entry rest ih =>
    obtain ⟨action, value⟩ := entry
    rw [checkEntries] at h
    split at h
    · exact Except.error.inj h ▸ rfl
    · split at h
      · exact Except.error.inj h ▸ rfl
      · exact ih (map_eq_error.mp h)

theorem hasText_of_checkActions {actions : Value} {cause : PolicyError}
    (h : checkActions actions = .error cause) : cause.hasText = true := by
  cases actions with
  | mapping entries => exact hasText_of_checkEntries h
  | _ => exact Except.error.inj h ▸ rfl

/-- A scope is refused for a reason that can be written if the scope can. -/
theorem hasText_of_checkScope {context subject : Entity} {role : Name} {r : Request}
    {cause : PolicyError} (hr : r.Written)
    (h : checkScope context role subject r.subjectRole? = .error cause) : cause.hasText = true := by
  cases hvalue : r.subjectRole? with
  | none => simp [hvalue, checkScope] at h
  | some value =>
    rw [hvalue] at h
    obtain hnamed | ⟨found, -, h⟩ := bind_eq_error.mp h
    · split at hnamed
      · contradiction
      · split at hnamed
        · contradiction
        · exact Except.error.inj hnamed ▸ hr.2 value hvalue
    · split at h
      · exact Except.error.inj h ▸ rfl
      · contradiction

/-- A request whose references can be given is refused as a policy, for a reason that can be written if
the roles of the request can. -/
theorem check_eq_error {r : Request} (hcontext : r.context.Given g) (hsubject : r.subject.Given g)
    {e : Error} (h : r.check g = .error e) :
    ∃ cause, e = .policy cause ∧ (r.Written → cause.hasText = true) := by
  have hparts := h
  rcases bind_eq_error.mp hparts with hfound | ⟨context, hfound, hparts⟩
  · obtain ⟨cause, he, htext⟩ := resolve_eq_error hcontext hfound
    exact ⟨cause, he, fun _ => htext⟩
  rcases bind_eq_error.mp hparts with hfound' | ⟨subject, hfound', -⟩
  · obtain ⟨cause, he, htext⟩ := resolve_eq_error hsubject hfound'
    exact ⟨cause, he, fun _ => htext⟩
  rw [check_of_resolved hfound hfound'] at h
  split at h
  rotate_left
  · exact ⟨_, (Except.error.inj h).symm, fun _ => rfl⟩
  split at h
  · exact ⟨_, (Except.error.inj h).symm, fun hr => hr.1⟩
  rcases bind_eq_error.mp h with h | ⟨scope, -, h⟩
  · obtain ⟨cause, hscope, rfl⟩ := mapError_eq_error.mp h
    exact ⟨cause, rfl, fun hr => hasText_of_checkScope hr hscope⟩
  rcases bind_eq_error.mp h with h | ⟨actions, -, h⟩
  · obtain ⟨cause, hactions, rfl⟩ := mapError_eq_error.mp h
    exact ⟨cause, rfl, fun _ => hasText_of_checkActions hactions⟩
  · contradiction

end Request

end Policy

end AccessMatrix
