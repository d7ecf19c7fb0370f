import AccessMatrix.Proofs.Outcome
import AccessMatrix.Session.Step

/-!
# Rejected input

Input that cannot be read is rejected as a whole, however much of it could be read: nothing is allowed,
nothing is listed, and one warning names the failure. The subject is read first, then the memberships in
their order, and the first failure is the one named. No input makes a question fail, unless it holds an
integer of more digits than are written and the question has to write it.
-/

namespace AccessMatrix.Evaluation

open Outcome
open Session (Step)

/-- The failure that a query rejects its input for: that of the subject; where the subject can be
read, that of memberships which cannot be gone through; and where they can, that of the first
membership which cannot be read. -/
inductive Rejects (e : Engine) (memberships subject : Value) : Error → Prop
  | subject {error : Error} (hsubject : readSubject e subject = .error error) :
      Rejects e memberships subject error
  | memberships {read : Subject} (hsubject : readSubject e subject = .ok read)
      (hgiven : memberships.isTruthy = true) (hitems : memberships.items? = none) :
      Rejects e memberships subject (.misuse (.notIterable memberships.typeName))
  | element {read : Subject} {before after : List Value} {raw : Value} {error : Error}
      (hsubject : readSubject e subject = .ok read) (hgiven : memberships.isTruthy = true)
      (hitems : memberships.items? = some (before ++ raw :: after))
      (hbefore : ∀ earlier ∈ before, ∃ m, readMembership e earlier = .ok m)
      (hraw : readMembership e raw = .error error) : Rejects e memberships subject error

/-- Some part of the input of a query cannot be read, wherever it stands: the subject, memberships
that are given but cannot be gone through, or one of the memberships. -/
def Malformed (e : Engine) (memberships subject : Value) : Prop :=
  (∃ error, readSubject e subject = .error error) ∨
    memberships.isTruthy = true ∧ (memberships.items? = none ∨
      ∃ items, memberships.items? = some items ∧
        ∃ raw ∈ items, ∃ error, readMembership e raw = .error error)

variable {e : Engine} {memberships subject : Value} {error : Error}

/-- The memberships of a query fail to be gone through if they are given and have no items. -/
theorem rawMemberships_eq_error :
    rawMemberships memberships = .error error ↔ memberships.isTruthy = true ∧
      memberships.items? = none ∧ error = .misuse (.notIterable memberships.typeName) := by
  unfold rawMemberships Value.iterate
  split
  · rename_i hgiven
    cases hitems : memberships.items? with
    | none =>
      rw [Error.ofMisuse, mapError_eq_error]
      simp [hgiven, eq_comm]
    | some items => simp [Error.ofMisuse, mapError_eq_error]
  · rename_i hgiven
    simp [hgiven]

/-- The memberships of a query that have some are given, and these are their items. -/
theorem rawMemberships_eq_ok {raws : List Value} (h : raws ≠ []) :
    rawMemberships memberships = .ok raws ↔
      memberships.isTruthy = true ∧ memberships.items? = some raws := by
  unfold rawMemberships Value.iterate
  split
  · rename_i hgiven
    cases hitems : memberships.items? with
    | none => simp [Error.ofMisuse, mapError_eq_ok]
    | some items => simp [hgiven, Error.ofMisuse, mapError_eq_ok]
  · rename_i hgiven
    simp [hgiven, h.symm]

/-- Reading the input of a query fails with the failure that the input is rejected for. -/
theorem readInput_eq_error :
    readInput e memberships subject = .error error ↔ Rejects e memberships subject error := by
  rw [readInput, bind_eq_error]
  constructor
  · rintro (hsubject | ⟨read, hsubject, h⟩)
    · exact .subject hsubject
    obtain hraws | ⟨raws, hraws, h⟩ := bind_eq_error.mp h
    · obtain ⟨hgiven, hitems, rfl⟩ := rawMemberships_eq_error.mp hraws
      exact .memberships hsubject hgiven hitems
    obtain hread | ⟨_, -, hpure⟩ := bind_eq_error.mp h
    · obtain ⟨before, raw, after, rfl, hbefore, hraw⟩ := mapM_eq_error.mp hread
      obtain ⟨hgiven, hitems⟩ := (rawMemberships_eq_ok (by simp)).mp hraws
      exact .element hsubject hgiven hitems hbefore hraw
    · cases hpure
  · intro h
    cases h with
    | subject hsubject => exact .inl hsubject
    | memberships hsubject hgiven hitems =>
      have hraws := rawMemberships_eq_error.mpr ⟨hgiven, hitems, rfl⟩
      exact .inr ⟨_, hsubject, bind_eq_error.mpr (.inl hraws)⟩
    | element hsubject hgiven hitems hbefore hraw =>
      have hraws := (rawMemberships_eq_ok (by simp)).mpr ⟨hgiven, hitems⟩
      refine .inr ⟨_, hsubject, bind_eq_error.mpr (.inr ⟨_, hraws, bind_eq_error.mpr (.inl ?_)⟩)⟩
      exact mapM_eq_error.mpr ⟨_, _, _, rfl, hbefore, hraw⟩

/-- Of a list with an element that cannot be read, some first one cannot be read. -/
theorem exists_first_unreadable {items : List Value} {raw : Value} (hraw : raw ∈ items)
    (h : readMembership e raw = .error error) :
    ∃ before first after found, items = before ++ first :: after ∧
      (∀ earlier ∈ before, ∃ m, readMembership e earlier = .ok m) ∧
      readMembership e first = .error found := by
  let unreadable (raw : Value) : Bool := !(readMembership e raw).isOk
  have hsome : (items.find? unreadable).isSome := by
    refine List.find?_isSome.mpr ⟨raw, hraw, ?_⟩
    simp [unreadable, isOk_eq_false_iff.mpr ⟨error, h⟩]
  obtain ⟨first, hfirst⟩ := Option.isSome_iff_exists.mp hsome
  obtain ⟨hfails, before, after, hitems, hbefore⟩ := List.find?_eq_some_iff_append.mp hfirst
  obtain ⟨found, hfound⟩ := isOk_eq_false_iff.mp (Bool.not_eq_true' _ ▸ hfails)
  refine ⟨before, first, after, found, hitems, fun earlier hearlier => ?_, hfound⟩
  exact isOk_eq_true_iff.mp (by simpa [unreadable] using hbefore earlier hearlier)

/-- Input is rejected for some failure exactly if some part of it cannot be read. -/
theorem malformed_iff :
    Malformed e memberships subject ↔ ∃ error, Rejects e memberships subject error := by
  constructor
  · intro h
    cases hsubject : readSubject e subject with
    | error error => exact ⟨error, .subject hsubject⟩
    | ok read =>
      obtain ⟨error, herror⟩ | ⟨hgiven, hitems | ⟨items, hitems, raw, hraw, error, herror⟩⟩ := h
      · exact nomatch hsubject.symm.trans herror
      · exact ⟨_, .memberships hsubject hgiven hitems⟩
      · obtain ⟨before, first, after, found, rfl, hbefore, hfirst⟩ :=
          exists_first_unreadable hraw herror
        exact ⟨found, .element hsubject hgiven hitems hbefore hfirst⟩
  · rintro ⟨error, h⟩
    cases h with
    | subject hsubject => exact .inl ⟨error, hsubject⟩
    | memberships hsubject hgiven hitems => exact .inr ⟨hgiven, .inl hitems⟩
    | element hsubject hgiven hitems hbefore hraw =>
      exact .inr ⟨hgiven, .inr ⟨_, hitems, _, by simp, error, hraw⟩⟩

/-- A query with input that is rejected resolves to nothing and makes one record of it. -/
theorem query_of_rejects (h : Rejects e memberships subject error) :
    query e memberships subject = ⟨none, [rejection e subject error]⟩ := by
  rw [query, readInput_eq_error.mpr h]

/-- A query with input that can be read resolves to something and makes no record. -/
theorem query_of_not_malformed (h : ¬ Malformed e memberships subject) :
    ∃ r, query e memberships subject = ⟨some r, []⟩ := by
  cases hread : readInput e memberships subject with
  | ok input => exact ⟨resolve e.graph input, by rw [query, hread]⟩
  | error error => exact absurd (malformed_iff.mpr ⟨error, readInput_eq_error.mp hread⟩) h

/-- An explanation of input that can be read makes no record but that of the decision. -/
theorem records_explain (h : ¬ Malformed e memberships subject) (action : Value) :
    ∀ record ∈ (explain e memberships action subject).records, record.level = .debug := by
  obtain ⟨r, hquery⟩ := query_of_not_malformed h
  intro record hrecord
  simp only [explain, hquery, List.nil_append] at hrecord
  split at hrecord
  · split at hrecord
    · rw [List.mem_singleton.mp hrecord]
      rfl
    · cases hrecord
  · cases hrecord

/-- A value is read as a record or found to be none; neither depends on texts. -/
theorem hasText_of_readAs {α : Type} {name : String} {check : Value → Validation.Checked α}
    {value : Value} (h : readAs name check value = .error error) : error.hasText = true := by
  obtain ⟨found, -, rfl⟩ := mapError_eq_error.mp h
  rfl

/-- The item of a value under a text is missing for a reason that can be written. -/
theorem hasText_of_fieldOf {raw : Value} {key : String} (h : fieldOf raw key = .error error) :
    error.hasText = true := by
  obtain ⟨misuse, hitem, rfl⟩ := mapError_eq_error.mp h
  cases raw with
  | mapping entries =>
    cases hlookup : Value.lookup entries (.text key) with
    | none =>
      obtain rfl : Misuse.noKey (.text key) = misuse := by
        simpa [Value.item, Value.checkKey, Value.unkeyable?, hlookup, bind, Except.bind, throw,
          throwThe, MonadExceptOf.throw] using hitem
      rfl
    | some found =>
      simp [Value.item, Value.checkKey, Value.unkeyable?, hlookup, bind, Except.bind, pure,
        Except.pure] at hitem
  | _ => exact Except.error.inj hitem ▸ rfl

/-- Fields that are read one after the other fail for a reason that can be written if each does. -/
theorem hasText_of_bind {α β : Type} {first : Except Error α} {next : α → Except Error β}
    (hfirst : ∀ error, first = .error error → error.hasText = true)
    (hnext : ∀ a error, next a = .error error → error.hasText = true)
    (h : first.bind next = .error error) : error.hasText = true := by
  obtain hfailed | ⟨a, -, hfailed⟩ := bind_eq_error.mp h
  · exact hfirst error hfailed
  · exact hnext a error hfailed

/-- A record of an application is refused for a reason that can be written. -/
theorem hasText_of_adapt {α : Type} {adapter? : Option Adapter} {read ofFields : Value → Except Error α}
    {raw : Value} (hread : ∀ error, read raw = .error error → error.hasText = true)
    (hfields : ∀ error, ofFields raw = .error error → error.hasText = true)
    (h : adapt adapter? read ofFields raw = .error error) : error.hasText = true := by
  unfold adapt at h
  split at h
  · exact hread error h
  · exact hread error h
  · exact Except.error.inj h ▸ rfl
  · exact Except.error.inj h ▸ rfl
  · exact hfields error h

theorem hasText_of_readSubject (h : readSubject e subject = .error error) :
    error.hasText = true := by
  refine hasText_of_adapt (fun _ => hasText_of_readAs) (fun _ hfields => ?_) h
  refine hasText_of_bind (fun _ => hasText_of_fieldOf) (fun _ _ => ?_) hfields
  refine hasText_of_bind (fun _ => hasText_of_fieldOf) (fun _ _ => ?_)
  exact hasText_of_bind (fun _ => hasText_of_fieldOf) fun _ _ => hasText_of_readAs

theorem hasText_of_readMembership {raw : Value} (h : readMembership e raw = .error error) :
    error.hasText = true := by
  refine hasText_of_adapt (fun _ => hasText_of_readAs) (fun _ hfields => ?_) h
  refine hasText_of_bind (fun _ => hasText_of_fieldOf) (fun _ _ => ?_) hfields
  refine hasText_of_bind (fun _ => hasText_of_fieldOf) (fun _ _ => ?_)
  exact hasText_of_bind (fun _ => hasText_of_fieldOf) fun _ _ => hasText_of_readAs

/-- The failure that an input is rejected for can be written, whatever the input is. -/
theorem hasText_of_rejects (h : Rejects e memberships subject error) : error.hasText = true := by
  cases h with
  | subject hsubject => exact hasText_of_readSubject hsubject
  | memberships hsubject hgiven hitems => rfl
  | element hsubject hgiven hitems hbefore hraw => exact hasText_of_readMembership hraw

/-- What comes of a text that is needed. -/
theorem checkText_eq (v : Value) :
    v.checkText = if v.hasText then .ok () else .error .tooManyDigits := rfl

/-- Asked with input that is rejected, nothing is resolved, and the one record is made that names the
failure; without a text for the subject the question fails there. -/
theorem askResolution_of_rejects (h : Rejects e memberships subject error) :
    askResolution e memberships subject =
      if subject.hasText then (.ok none, [rejection e subject error])
      else (.error .tooManyDigits, []) := by
  have hwrite : writeRejection subject error = subject.checkText := by
    rw [writeRejection, hasText_of_rejects h]
    rfl
  rw [askResolution, readInput_eq_error.mpr h, query_of_rejects h]
  simp only [hwrite, checkText_eq]
  cases subject.hasText <;> rfl

/-- Asked with input that can be read, it is resolved and no record is made. -/
theorem askResolution_of_not_malformed (h : ¬ Malformed e memberships subject) :
    ∃ r, query e memberships subject = ⟨some r, []⟩ ∧
      askResolution e memberships subject = (.ok (some r), []) := by
  obtain ⟨r, hquery⟩ := query_of_not_malformed h
  refine ⟨r, hquery, ?_⟩
  cases hread : readInput e memberships subject with
  | ok input => rw [askResolution, hread, hquery]; rfl
  | error error => exact absurd (malformed_iff.mpr ⟨error, readInput_eq_error.mp hread⟩) h

/-- The decision on an action that has no input to be decided on. -/
def refusal (action : Value) : Decision where
  allowed := false
  action := .plain action.display
  actionKey := ""

/-- Asked with input that is rejected, every action is refused, if the action has a text. -/
theorem askDecision_of_rejects (h : Rejects e memberships subject error)
    (hsubject : subject.hasText = true) (action : Value) :
    askDecision e memberships action subject =
      (if action.hasText then .ok (refusal action) else .error .tooManyDigits,
        [rejection e subject error]) := by
  have hexplain : explain e memberships action subject =
      ⟨refusal action, [rejection e subject error]⟩ := by
    simp only [explain, query_of_rejects h]
    rfl
  rw [askDecision, askResolution_of_rejects h, if_pos hsubject, hexplain]
  simp only [Answer.after, checkText_eq]
  cases action.hasText <;> rfl

/-- Asked with input that can be read, an action that has a text is decided, and no warning is made. -/
theorem askDecision_of_not_malformed (h : ¬ Malformed e memberships subject) (action : Value) :
    (askDecision e memberships action subject).1 =
        (if action.hasText then .ok (explain e memberships action subject).value
          else .error .tooManyDigits) ∧
      ∀ record ∈ (askDecision e memberships action subject).2, record.level = .debug := by
  obtain ⟨r, -, hask⟩ := askResolution_of_not_malformed h
  have hrecords := records_explain h action
  rw [askDecision, hask]
  cases hname : Name.ofValue? action with
  | none =>
    simp only [Answer.after, checkText_eq]
    refine ⟨?_, hrecords⟩
    cases action.hasText <;> rfl
  | some name =>
    have htext : action.hasText = true := by
      rw [← Name.toValue_of_ofValue? hname]
      cases name <;> rfl
    simp only [htext, if_true]
    exact ⟨rfl, hrecords⟩

/-- What the warning of a rejected input tells: the engine, the kind of the failure, and its text and the
subject in previews. -/
structure Warns (e : Engine) (subject : Value) (error : Error) (record : Log.Record) : Prop where
  level : record.level = .warning
  engine : record.engine? = some e.name ∨ record.engine? = none ∧ e.name.isTruthy = false
  message : ∃ failure shown,
    Log.previewWithin (.int 160) (.text error.message) = .ok failure ∧
    Log.previewWithin (.int 240) subject = .ok shown ∧
    record.message =
      "Rejected malformed evaluation input (" ++ error.kind ++ ": " ++ failure ++ "); subject=" ++
        shown

/-- The warning of a rejected input tells what it has to, if the subject has a text. -/
theorem warns_rejection (e : Engine) (error : Error) (h : subject.hasText = true) :
    Warns e subject error (rejection e subject error) where
  level := rfl
  engine := by
    cases hname : e.name.isTruthy <;> simp [rejection, Log.Record.ofEngine, hname]
  message := by
    refine ⟨failureText error, Log.preview Log.defaultLimit subject, rfl, ?_, ?_⟩
    · simp only [Log.previewWithin, checkText_eq, h, if_true]
      cases subject <;> rfl
    · rfl

/-- The reply to a question about an action, which has to have a text. -/
def replyOn (action : Value) (reply : Session.Reply) : Except Error Session.Reply :=
  if action.hasText then .ok reply else .error (.misuse .tooManyDigits)

theorem replyOn_of_hasText {action : Value} (h : action.hasText = true) (reply : Session.Reply) :
    replyOn action reply = .ok reply := if_pos h

theorem replyOn_eq_error {action : Value} {reply : Session.Reply}
    (h : replyOn action reply = .error error) :
    error = .misuse .tooManyDigits ∧ action.hasText = false := by
  unfold replyOn at h
  split at h
  · contradiction
  · rename_i htext
    exact ⟨(Except.error.inj h).symm, by simpa using htext⟩

section

variable (s : Session)

/-- What the questions about a subject come to in a session. -/
def questions (memberships action subject : Value) :
    List (Except Error Session.Reply × Session) :=
  [(Step.isAllowed memberships action subject).run s, (Step.explain memberships action subject).run s,
    (Step.actorPolicies memberships subject).run s, (Step.resolve memberships subject).run s]

/-- With input that is rejected, the questions are answered that have to write nothing but the subject. -/
theorem runs_of_rejects (h : Rejects s.engine memberships subject error)
    (hsubject : subject.hasText = true) (action : Value) :
    let warned := s.log [rejection s.engine subject error]
    (Step.isAllowed memberships action subject).run s = (replyOn action (.flag false), warned) ∧
      (Step.explain memberships action subject).run s =
        (replyOn action (.decision (refusal action)), warned) ∧
      (Step.actorPolicies memberships subject).run s = (.ok (.actions []), warned) ∧
      (Step.resolve memberships subject).run s = (.ok (.resolution none), warned) := by
  intro warned
  have hdecision := askDecision_of_rejects h hsubject action
  have hresolution := askResolution_of_rejects h
  rw [if_pos hsubject] at hresolution
  have hpolicies : askPolicies s.engine memberships subject =
      (.ok [], [rejection s.engine subject error]) := by
    simp only [askPolicies, hresolution, getActorPolicies, query_of_rejects h]
    rfl
  refine ⟨?_, ?_, congrArg (s.asked · Session.Reply.actions) hpolicies,
    congrArg (s.asked · Session.Reply.resolution) hresolution⟩
  · change s.asked (askAllowed s.engine memberships action subject) Session.Reply.flag = _
    rw [askAllowed, hdecision]
    simp only [replyOn]
    cases action.hasText <;> rfl
  · change s.asked (askDecision s.engine memberships action subject) Session.Reply.decision = _
    rw [hdecision]
    simp only [replyOn]
    cases action.hasText <;> rfl

/-- With input that is rejected and a subject without a text, every question fails before a warning is
made. -/
theorem runs_of_unwritten (h : Rejects s.engine memberships subject error)
    (hsubject : subject.hasText = false) (action : Value) :
    ∀ ran ∈ questions s memberships action subject,
      ran = (.error (.misuse .tooManyDigits), s.log []) := by
  have hresolution := askResolution_of_rejects h
  rw [if_neg (by simp [hsubject])] at hresolution
  have hdecision : askDecision s.engine memberships action subject =
      (.error .tooManyDigits, []) := by
    simp only [askDecision, hresolution]
  have hallowed : askAllowed s.engine memberships action subject = (.error .tooManyDigits, []) := by
    rw [askAllowed, hdecision]
    rfl
  have hpolicies : askPolicies s.engine memberships subject = (.error .tooManyDigits, []) := by
    simp only [askPolicies, hresolution]
  simp only [questions, List.forall_mem_cons, List.not_mem_nil, false_imp_iff, implies_true,
    and_true]
  exact ⟨congrArg (s.asked · Session.Reply.flag) hallowed,
    congrArg (s.asked · Session.Reply.decision) hdecision,
    congrArg (s.asked · Session.Reply.actions) hpolicies,
    congrArg (s.asked · Session.Reply.resolution) hresolution⟩

/-- With input that can be read, every question is answered that has to write no action without a text,
and no warning is made. -/
theorem runs_of_not_malformed (h : ¬ Malformed s.engine memberships subject) (action : Value) :
    ∃ r records, (∀ record ∈ records, record.level = .debug) ∧
      (Step.isAllowed memberships action subject).run s =
        (replyOn action (.flag (isAllowed s.engine memberships action subject).value), s.log records) ∧
      (Step.explain memberships action subject).run s =
        (replyOn action (.decision (explain s.engine memberships action subject).value), s.log records) ∧
      (Step.actorPolicies memberships subject).run s =
        (.ok (.actions (getActorPolicies s.engine memberships subject).value), s.log []) ∧
      (Step.resolve memberships subject).run s = (.ok (.resolution (some r)), s.log []) := by
  obtain ⟨r, hquery, hresolution⟩ := askResolution_of_not_malformed h
  obtain ⟨hanswer, hrecords⟩ := askDecision_of_not_malformed h action
  have hpolicies : askPolicies s.engine memberships subject =
      (.ok (getActorPolicies s.engine memberships subject).value, []) := by
    simp only [askPolicies, hresolution, getActorPolicies, hquery]
    rfl
  refine ⟨r, (askDecision s.engine memberships action subject).2, hrecords, ?_, ?_,
    congrArg (s.asked · Session.Reply.actions) hpolicies,
    congrArg (s.asked · Session.Reply.resolution) hresolution⟩
  · change s.asked (askAllowed s.engine memberships action subject) Session.Reply.flag = _
    simp only [Session.asked, askAllowed, hanswer, replyOn]
    cases action.hasText <;> rfl
  · change s.asked (askDecision s.engine memberships action subject) Session.Reply.decision = _
    simp only [Session.asked, hanswer, replyOn]
    cases action.hasText <;> rfl

end

/-- An action that is an integer of too many digits has no text to be refused under. -/
example :
    let subject := (⟨"org", "o1", []⟩ : Subject).toValue
    let asked (action : Value) := ((Step.isAllowed (.list []) action subject).run {}).1
    (asked (.int (10 ^ 4300 - 1))).isOk = true ∧ (asked (.int (10 ^ 4300))).isOk = false := by
  decide +kernel

end AccessMatrix.Evaluation
