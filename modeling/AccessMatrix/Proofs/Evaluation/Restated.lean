import AccessMatrix.Evaluation.Raw
import AccessMatrix.Proofs.Entries
import AccessMatrix.Proofs.Evaluation.Rejection
import AccessMatrix.Proofs.Session.Configuration

/-!
# Memberships restated

A membership can be handed over in several ways: as a record, as the mapping that the record is
written to in either spelling of its fields, or as any mapping that is read as the record. Which of
them is chosen makes no difference to a query. Without an adapter all that a query takes from what it
is given is the record that is read from it, if one is, and no answer rests on anything else.

Fields that a mapping gives once can be respelled, key by key: what is given for each field stays the
same, and so the record does; and what cannot be read still cannot.
-/

namespace AccessMatrix

open Outcome

/-- Where one item at most has one of two properties, it is found by either. -/
theorem find?_or_find? {β : Type} {p q : β → Bool} {items : List β}
    (h : items.countP (fun item => p item || q item) ≤ 1) :
    (items.find? p).or (items.find? q) = items.find? fun item => p item || q item := by
  induction items with
  | nil => rfl
  | cons item rest ih =>
    cases hp : p item with
    | true => simp [hp]
    | false =>
      cases hq : q item with
      | false => simpa [hp, hq] using ih (by simpa [List.countP_cons, hp, hq] using h)
      | true =>
        have hnone : rest.find? p = none := by
          have hrest : rest.countP (fun item => p item || q item) = 0 := by
            simpa [List.countP_cons, hp, hq] using h
          exact List.find?_eq_none.mpr fun other hother hhas =>
            List.countP_eq_zero.mp hrest other hother (by simp [hhas])
        simp [hp, hq, hnone]

namespace Validation

/-- Moving faults under a place changes no answer. -/
theorem toOption_under {α : Type} (place : Value) (checked : Checked α) :
    (under place checked).toOption = checked.toOption := by
  cases checked <;> rfl

namespace Field

variable {α : Type} {field : Field} {given : List (Value × Value)}

/-- Whether a key is one of the spellings of a field. -/
def isKey (field : Field) (key : Value) : Bool :=
  key.asText? = some field.preferred || key.asText? = some field.name

theorem isKey_spelled (field : Field) (spelling : Spelling) :
    field.isKey (.text (field.spelled spelling)) = true := by
  cases spelling <;> simp [isKey, spelled, Value.asText?]

/-- What is no spelling of a field is no key of it. -/
theorem isKey_eq_false {text : String} (h : ∀ spelling, text ≠ field.spelled spelling) :
    field.isKey (.text text) = false := by
  have hpreferred : text ≠ field.preferred := h .preferred
  have hname : text ≠ field.name := h .names
  simp [isKey, Value.asText?, hpreferred, hname]

/-- What is given first for a field, in either spelling. -/
def value? (field : Field) (given : List (Value × Value)) : Option Value :=
  (given.find? fun entry => field.isKey entry.1).map Prod.snd

/-- A field is given at most once, whatever its spelling. -/
def GivenOnce (field : Field) (given : List (Value × Value)) : Prop :=
  given.countP (fun entry => field.isKey entry.1) ≤ 1

instance (field : Field) (given : List (Value × Value)) : Decidable (field.GivenOnce given) :=
  inferInstanceAs (Decidable (_ ≤ 1))

/-- The value under a text is that of the first key with this text. -/
theorem field?_eq_find? (given : List (Value × Value)) (name : String) :
    Value.field? given name =
      (given.find? fun entry => decide (entry.1.asText? = some name)).map Prod.snd := by
  rw [Value.field?_eq_head?, Value.valuesUnder, List.head?_map, List.head?_filter]

theorem find?_eq_or (field : Field) (given : List (Value × Value)) :
    (field.find? given).map Prod.snd =
      (Value.field? given field.preferred).or (Value.field? given field.name) := by
  rw [find?]
  cases Value.field? given field.preferred with
  | some value => rfl
  | none => cases Value.field? given field.name <;> rfl

/-- What a record gives for a field that it gives once. -/
theorem find?_eq_value? (h : field.GivenOnce given) :
    (field.find? given).map Prod.snd = field.value? given := by
  rw [find?_eq_or, field?_eq_find?, field?_eq_find?, ← Option.map_or, find?_or_find? h]
  rfl

theorem toOption_required (field : Field) (given : List (Value × Value))
    (check : Value → Checked α) :
    (field.required given check).toOption =
      ((field.find? given).map Prod.snd).bind fun value => (check value).toOption := by
  rw [required]
  cases field.find? given with
  | none => rfl
  | some found => exact toOption_under _ _

theorem toOption_optional (field : Field) (given : List (Value × Value)) (default : α)
    (check : Value → Checked α) :
    (field.optional given default check).toOption =
      (((field.find? given).map Prod.snd).map fun value => (check value).toOption).getD
        (some default) := by
  rw [optional]
  cases field.find? given with
  | none => rfl
  | some found => exact toOption_under _ _

theorem required_of_find? {check : Value → Checked α} {spelling : String} {value : Value} {a : α}
    (h : field.find? given = some (spelling, value)) (hcheck : check value = .ok a) :
    field.required given check = .ok a := by
  rw [required, h]
  simp only [hcheck]
  rfl

theorem optional_of_find? {check : Value → Checked α} {spelling : String} {value : Value} {a : α}
    (h : field.find? given = some (spelling, value)) (default : α) (hcheck : check value = .ok a) :
    field.optional given default check = .ok a := by
  rw [optional, h]
  simp only [hcheck]
  rfl

end Field

theorem text_text (s : String) : text (.text s) = .ok s := rfl

/-- A text or nothing is read back. -/
theorem optionalText_ofOption (text? : Option String) :
    optionalText (.ofOption text?) = .ok text? := by
  cases text? <;> rfl

/-- Ancestor keys are read back. -/
theorem mapping_ofAncestors (ancestors : Table String (Option String)) :
    mapping optionalText (.ofAncestors ancestors) = .ok ancestors := by
  rw [Value.ofAncestors, Value.ofFields, mapping]
  induction ancestors with
  | nil => rfl
  | cons entry rest ih =>
    rw [List.map_cons, List.map_cons, entries, ih, optionalText_ofOption]
    rfl

end Validation

open Validation (Field)

namespace Membership

/-- A membership that is written in either spelling is read back. -/
theorem ofValue_toValue (m : Membership) (spelling : Spelling) :
    ofValue (m.toValue spelling) = .ok m := by
  let given := [(Value.text (contextField.spelled spelling), Value.text m.contextName),
    (.text (keyField.spelled spelling), .text m.contextKey),
    (.text (roleField.spelled spelling), .ofOption m.roleName),
    (.text (ancestorsField.spelled spelling), .ofAncestors m.ancestors)]
  have hcontext : contextField.find? given =
      some (contextField.spelled spelling, .text m.contextName) := by
    cases spelling <;> rfl
  have hkey : keyField.find? given = some (keyField.spelled spelling, .text m.contextKey) := by
    cases spelling <;> rfl
  have hrole : roleField.find? given = some (roleField.spelled spelling, .ofOption m.roleName) := by
    cases spelling <;> rfl
  have hancestors : ancestorsField.find? given =
      some (ancestorsField.spelled spelling, .ofAncestors m.ancestors) := by
    cases spelling <;> rfl
  change ofEntries given = .ok m
  rw [ofEntries, Field.required_of_find? hcontext (Validation.text_text _),
    Field.required_of_find? hkey (Validation.text_text _),
    Field.optional_of_find? hrole none (Validation.optionalText_ofOption _),
    Field.optional_of_find? hancestors [] (Validation.mapping_ofAncestors _)]

/-- The fields with two spellings. -/
def spelledFields : List Field := [contextField, keyField, roleField]

/-- A membership is read exactly if all its fields are. -/
theorem toOption_ofEntries (given : List (Value × Value)) :
    (ofEntries given).toOption = do
      let context ← (contextField.required given Validation.text).toOption
      let key ← (keyField.required given Validation.text).toOption
      let role ← (roleField.optional given none Validation.optionalText).toOption
      let ancestors ← (ancestorsField.optional given []
        (Validation.mapping Validation.optionalText)).toOption
      return ⟨context, key, role, ancestors⟩ := by
  rw [ofEntries]
  generalize contextField.required given Validation.text = context,
    keyField.required given Validation.text = key,
    roleField.optional given none Validation.optionalText = role,
    ancestorsField.optional given [] (Validation.mapping Validation.optionalText) = ancestors
  cases context <;> cases key <;> cases role <;> cases ancestors <;> rfl

/-- A key is left as it is, or is one spelling of one of some fields and becomes another. -/
inductive RespelledKey (fields : List Field) : Value → Value → Prop
  | same (key : Value) : RespelledKey fields key key
  | field {field : Field} (h : field ∈ fields) (spelling spelling' : Spelling) :
      RespelledKey fields (.text (field.spelled spelling)) (.text (field.spelled spelling'))

/-- The same entries but for the spelling of some fields. -/
def Respelled (fields : List Field) (given given' : List (Value × Value)) : Prop :=
  List.Forall₂ (fun entry entry' => RespelledKey fields entry.1 entry'.1 ∧ entry'.2 = entry.2)
    given given'

/-- No spelling of a field is one of another field. -/
theorem spelled_ne_spelled {field other : Field} (hfield : field ∈ spelledFields ++ [ancestorsField])
    (hother : other ∈ spelledFields) (hne : other ≠ field) (spelling spelling' : Spelling) :
    other.spelled spelling ≠ field.spelled spelling' := by
  simp only [spelledFields, List.mem_cons, List.not_mem_nil, List.cons_append, List.nil_append,
    or_false] at hfield hother
  rcases hfield with rfl | rfl | rfl | rfl <;> rcases hother with rfl | rfl | rfl <;>
    cases spelling <;> cases spelling' <;> first | decide | exact absurd rfl hne

section

variable {fields : List Field} {field : Field} {given given' : List (Value × Value)}

/-- A key of a field stays one in any spelling. -/
theorem RespelledKey.isKey_eq {key key' : Value} (h : RespelledKey fields key key')
    (hfields : fields ⊆ spelledFields) (hfield : field ∈ spelledFields) :
    field.isKey key' = field.isKey key := by
  cases h with
  | same => rfl
  | @field other hother spelling spelling' =>
    by_cases heq : other = field
    · subst heq
      rw [Field.isKey_spelled, Field.isKey_spelled]
    · have hne := spelled_ne_spelled (List.mem_append_left _ hfield) (hfields hother) heq
      rw [Field.isKey_eq_false (hne _), Field.isKey_eq_false (hne _)]

/-- A key of a field that is not among those respelled is left as it is. -/
theorem RespelledKey.asText?_eq_iff {key key' : Value} (h : RespelledKey fields key key')
    (hfields : fields ⊆ spelledFields) (hfield : field ∈ spelledFields ++ [ancestorsField])
    (hkept : field ∉ fields) (spelling : Spelling) :
    key'.asText? = some (field.spelled spelling) ↔ key.asText? = some (field.spelled spelling) := by
  cases h with
  | same => rfl
  | field hrespelled spelled spelled' =>
    have hne (other : Spelling) := spelled_ne_spelled hfield (hfields hrespelled)
      (fun heq => hkept (heq ▸ hrespelled)) other spelling
    simp [Value.asText?, hne]

/-- What is found under keys that respelling does not tell apart is found after respelling. -/
theorem Respelled.find?_eq (h : Respelled fields given given') {isSought : Value → Bool}
    (hsought : ∀ key key', RespelledKey fields key key' → isSought key' = isSought key) :
    (given'.find? fun entry => isSought entry.1).map Prod.snd =
      (given.find? fun entry => isSought entry.1).map Prod.snd := by
  induction h with
  | nil => rfl
  | @cons entry entry' rest rest' hentry _ ih =>
    simp only [List.find?_cons, hsought _ _ hentry.1]
    cases isSought entry.1 with
    | false => exact ih
    | true => exact congrArg some hentry.2

/-- A field is given as often in any spelling. -/
theorem Respelled.countP_isKey (h : Respelled fields given given') (hfields : fields ⊆ spelledFields)
    (hfield : field ∈ spelledFields) :
    given'.countP (fun entry => field.isKey entry.1) =
      given.countP fun entry => field.isKey entry.1 := by
  induction h with
  | nil => rfl
  | cons hentry _ ih => simp only [List.countP_cons, hentry.1.isKey_eq hfields hfield, ih]

/-- What is given for a field is given for it after some fields were respelled that are given once. -/
theorem Respelled.find?_field_eq (h : Respelled fields given given')
    (hfields : fields ⊆ spelledFields) (honce : ∀ field ∈ fields, field.GivenOnce given)
    (hfield : field ∈ spelledFields ++ [ancestorsField]) :
    (field.find? given').map Prod.snd = (field.find? given).map Prod.snd := by
  by_cases hrespelled : field ∈ fields
  · have hspelled : field ∈ spelledFields := hfields hrespelled
    have honce' : field.GivenOnce given' :=
      Nat.le_trans (Nat.le_of_eq (h.countP_isKey hfields hspelled)) (honce field hrespelled)
    rw [Field.find?_eq_value? (honce field hrespelled), Field.find?_eq_value? honce']
    exact h.find?_eq fun _ _ hkey => hkey.isKey_eq hfields hspelled
  · have hkept (spelling : Spelling) : Value.field? given' (field.spelled spelling) =
        Value.field? given (field.spelled spelling) := by
      rw [Field.field?_eq_find?, Field.field?_eq_find?]
      exact h.find?_eq fun _ _ hkey =>
        decide_eq_decide.mpr (hkey.asText?_eq_iff hfields hfield hrespelled spelling)
    rw [Field.find?_eq_or, Field.find?_eq_or]
    exact congrArg₂ Option.or (hkept .preferred) (hkept .names)

/-- A mapping is read alike after some fields were respelled that are given once. -/
theorem Respelled.toOption_ofEntries (h : Respelled fields given given')
    (hfields : fields ⊆ spelledFields) (honce : ∀ field ∈ fields, field.GivenOnce given) :
    (ofEntries given').toOption = (ofEntries given).toOption := by
  have hfound (field : Field) (hfield : field ∈ spelledFields ++ [ancestorsField]) :=
    h.find?_field_eq hfields honce hfield
  simp only [Membership.toOption_ofEntries, Field.toOption_required, Field.toOption_optional,
    hfound contextField (by simp [spelledFields]), hfound keyField (by simp [spelledFields]),
    hfound roleField (by simp [spelledFields]), hfound ancestorsField (by simp)]

end

end Membership

/-- A subject that is written is read back. -/
theorem Subject.ofValue_toValue (s : Subject) : ofValue s.toValue = .ok s := by
  let given := [(Value.text "name", Value.text s.name), (.text "key", .text s.key),
    (.text "ancestors", .ofAncestors s.ancestors)]
  have hname : (Field.plain "name").find? given = some ("name", .text s.name) := rfl
  have hkey : (Field.plain "key").find? given = some ("key", .text s.key) := rfl
  have hancestors : (Field.plain "ancestors").find? given =
      some ("ancestors", .ofAncestors s.ancestors) := rfl
  change ofEntries given = .ok s
  rw [ofEntries, Field.required_of_find? hname (Validation.text_text _),
    Field.required_of_find? hkey (Validation.text_text _),
    Field.optional_of_find? hancestors [] (Validation.mapping_ofAncestors _)]

namespace Evaluation

open AccessMatrix.Membership (Respelled spelledFields)

/-- The membership that is read from what a caller hands over. -/
def Raw.membership? : Raw Membership → Option Membership
  | .value v => (Membership.ofValue v).toOption
  | .record m => some m

/-- A membership is handed over in another way: as it is; as the record that is read from it, or as
this is written in either spelling of its fields; or with fields respelled that are given once. -/
inductive Restates : Raw Membership → Raw Membership → Prop
  | same (raw : Raw Membership) : Restates raw raw
  | record {raw : Raw Membership} {m : Membership} (h : raw.membership? = some m) :
      Restates raw (.record m)
  | written {raw : Raw Membership} {m : Membership} (h : raw.membership? = some m)
      (spelling : Spelling) : Restates raw (.value (m.toValue spelling))
  | respelled {fields : List Field} {given given' : List (Value × Value)}
      (hfields : fields ⊆ spelledFields) (h : Respelled fields given given')
      (honce : ∀ field ∈ fields, field.GivenOnce given) :
      Restates (.value (.mapping given)) (.value (.mapping given'))

/-- Whatever way a membership is handed over, the same is read from it. -/
theorem Restates.membership?_eq {raw raw' : Raw Membership} (h : Restates raw raw') :
    raw'.membership? = raw.membership? := by
  cases h with
  | same => rfl
  | record h => exact h.symm
  | written h spelling =>
    rw [h, Raw.membership?, Membership.ofValue_toValue]
    rfl
  | respelled hfields h honce => exact h.toOption_ofEntries hfields honce

variable {e : Engine} {raws raws' : List (Raw Membership)} {subject : Raw Subject}

/-- Without an adapter the membership that is read from something is all that is taken from it. -/
theorem toOption_readRawMembership (h : e.membershipAdapter? = none) (raw : Raw Membership) :
    (readRawMembership e raw).toOption = raw.membership? := by
  cases raw with
  | value v =>
    rw [readRawMembership, readMembership, h]
    exact toOption_mapError _ _
  | record m =>
    rw [readRawMembership, h]
    rfl

/-- Input is read alike in whatever way its memberships are handed over. -/
theorem toOption_readRawInput (h : e.membershipAdapter? = none)
    (hraws : List.Forall₂ Restates raws raws') (subject : Raw Subject) :
    (readRawInput e raws' subject).toOption = (readRawInput e raws subject).toOption := by
  have hmapM : raws'.mapM Raw.membership? = raws.mapM Raw.membership? := by
    induction hraws with
    | nil => rfl
    | cons hraw _ ih => rw [List.mapM_cons, List.mapM_cons, hraw.membership?_eq, ih]
  have hread (raws : List (Raw Membership)) :
      (raws.mapM (readRawMembership e)).toOption = raws.mapM Raw.membership? := by
    simp only [toOption_mapM, toOption_readRawMembership h]
  simp only [readRawInput, toOption_bind, hread, hmapM]

/-- A query resolves to what its input resolves to, if it can be read. -/
theorem value_queryRaw (e : Engine) (raws : List (Raw Membership)) (subject : Raw Subject) :
    (queryRaw e raws subject).value =
      (readRawInput e raws subject).toOption.map (resolve e.graph) := by
  rw [queryRaw]
  cases readRawInput e raws subject <;> rfl

/-- A decision rests on nothing but what the input resolves to. -/
theorem value_explainResolved {resolved resolved' : Answer (Option Resolution)}
    (h : resolved'.value = resolved.value) (e : Engine) (action : Value) :
    (explainResolved e resolved' action).value = (explainResolved e resolved action).value := by
  rw [explainResolved, explainResolved, h]
  split <;> rfl

/-- Values are read in a list as they are in a value that has them as its items. -/
theorem readRawInput_value {memberships subject : Value} {items : List Value}
    (h : rawMemberships memberships = .ok items) :
    readRawInput e (items.map .value) (.value subject) = readInput e memberships subject := by
  rw [readRawInput, readInput, h, List.mapM_map]
  rfl

theorem queryRaw_value {memberships subject : Value} {items : List Value}
    (h : rawMemberships memberships = .ok items) :
    queryRaw e (items.map .value) (.value subject) = query e memberships subject := by
  rw [queryRaw, readRawInput_value h]
  rfl

/-- Memberships in other words. What is written of a membership, in either spelling, is read back, and
so is what is written of a subject. Without an adapter of memberships, whatever each of some
memberships is replaced by that restates it, the input is rejected as before or read as before, and
every answer to it is as before. Lists of values are asked about as any value that has them as its
items. -/
theorem restated_memberships_agree :
    (∀ (m : Membership) (spelling : Spelling), Membership.ofValue (m.toValue spelling) = .ok m) ∧
    (∀ s : Subject, Subject.ofValue s.toValue = .ok s) ∧
    ∀ e : Engine,
      (e.membershipAdapter? = none → ∀ raws raws' : List (Raw Membership),
        List.Forall₂ Restates raws raws' → ∀ subject : Raw Subject,
          ((∃ error, readRawInput e raws' subject = .error error) ↔
            ∃ error, readRawInput e raws subject = .error error) ∧
          (queryRaw e raws' subject).value = (queryRaw e raws subject).value ∧
          (getActorPoliciesRaw e raws' subject).value = (getActorPoliciesRaw e raws subject).value ∧
          ∀ action,
            (explainRaw e raws' action subject).value = (explainRaw e raws action subject).value ∧
            (isAllowedRaw e raws' action subject).value =
              (isAllowedRaw e raws action subject).value) ∧
      ∀ (memberships subject : Value) (items : List Value),
        rawMemberships memberships = .ok items →
          queryRaw e (items.map .value) (.value subject) = query e memberships subject ∧
          getActorPoliciesRaw e (items.map .value) (.value subject) =
            getActorPolicies e memberships subject ∧
          ∀ action,
            explainRaw e (items.map .value) action (.value subject) =
              explain e memberships action subject ∧
            isAllowedRaw e (items.map .value) action (.value subject) =
              isAllowed e memberships action subject := by
  refine ⟨Membership.ofValue_toValue, Subject.ofValue_toValue, fun e => ⟨?_, ?_⟩⟩
  · intro hadapter raws raws' hraws subject
    have hinput := toOption_readRawInput hadapter hraws subject
    have hquery : (queryRaw e raws' subject).value = (queryRaw e raws subject).value := by
      rw [value_queryRaw, value_queryRaw, hinput]
    have hexplain (action : Value) :
        (explainRaw e raws' action subject).value = (explainRaw e raws action subject).value :=
      value_explainResolved hquery e action
    refine ⟨?_, hquery, ?_, fun action => ⟨hexplain action, ?_⟩⟩
    · rw [← toOption_eq_none, hinput, toOption_eq_none]
    · rw [getActorPoliciesRaw, getActorPoliciesRaw, hquery]
    · rw [isAllowedRaw, isAllowedRaw, hexplain]
  · intro memberships subject items hitems
    have hquery : queryRaw e (items.map .value) (.value subject) = query e memberships subject :=
      queryRaw_value hitems
    have hexplain (action : Value) : explainRaw e (items.map .value) action (.value subject) =
        explain e memberships action subject := by
      rw [explainRaw, hquery]
      rfl
    refine ⟨hquery, ?_, fun action => ⟨hexplain action, ?_⟩⟩
    · rw [getActorPoliciesRaw, hquery]
      rfl
    · rw [isAllowedRaw, hexplain]
      rfl

/-- The admin of an office, as a record. -/
def officeAdmin : Membership := ⟨"org", "o1", some "admin", [("team", none)]⟩

/-- A mapping that the record is read from, with an entry that is passed over. -/
def officeEntries (spelling : Spelling) : List (Value × Value) :=
  [(.text (Membership.contextField.spelled spelling), .text "org"), (.text "note", .int 1),
    (.text "contextKey", .text "o1"), (.text "role_name", .text "admin"),
    (.text "ancestors", .ofFields [("team", .null)])]

/-- The admin of an office may read it in whichever way the membership is handed over. -/
theorem restated_memberships_agree_office :
    let e := (({} : Session).after Session.officeCommands).engine
    let given := Value.mapping (officeEntries .preferred)
    let subject := (⟨"org", "o1", []⟩ : Subject).toValue
    let ways : List (Raw Membership) :=
      [.record officeAdmin, .value (officeAdmin.toValue .names),
        .value (officeAdmin.toValue .preferred), .value (.mapping (officeEntries .names))]
    e.membershipAdapter? = none ∧ (∀ way ∈ ways, Restates (.value given) way) ∧
      (isAllowed e (.list [given]) (.text "read") subject).value = true ∧
      ∀ way ∈ ways, (isAllowedRaw e [way] (.text "read") (.value subject)).value = true := by
  intro e given subject ways
  have hread : (Raw.value given).membership? = some officeAdmin := by rfl
  have hrespelled : Membership.Respelled [Membership.contextField] (officeEntries .preferred)
      (officeEntries .names) :=
    .cons ⟨.field List.mem_cons_self _ _, rfl⟩ (List.forall₂_same.mpr fun _ _ => ⟨.same _, rfl⟩)
  have hways : ∀ way ∈ ways, Restates (.value given) way := by
    simp only [ways, List.forall_mem_cons]
    exact ⟨.record hread, .written hread _, .written hread _, .respelled (by simp [spelledFields])
      hrespelled (by decide), by simp⟩
  have hallowed : (isAllowed e (.list [given]) (.text "read") subject).value = true := by
    decide +kernel
  have hadapter : e.membershipAdapter? = none := rfl
  refine ⟨hadapter, hways, hallowed, fun way hway => ?_⟩
  obtain ⟨-, -, hagree⟩ := restated_memberships_agree
  obtain ⟨hrestated, hvalues⟩ := hagree e
  obtain ⟨-, -, -, hsame⟩ :=
    hrestated hadapter [.value given] [way] (.cons (hways way hway) .nil) (.value subject)
  obtain ⟨-, -, hlist⟩ := hvalues (.list [given]) subject [given] rfl
  rw [(hsame (.text "read")).2, ← hallowed, ← (hlist (.text "read")).2]
  rfl

end Evaluation

end AccessMatrix
