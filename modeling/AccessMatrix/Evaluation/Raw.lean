import AccessMatrix.Evaluation.Decision

/-!
# Records as input

A caller can hand over memberships and subjects that are records already. A record is taken as it is.
An adapter that reads fields fails on it, because a record has no items.
-/

namespace AccessMatrix

/-- A subject as it is shown. -/
def Subject.display (s : Subject) : String :=
  let ancestors := (Value.ofAncestors s.ancestors).literal
  s!"name={Text.quote s.name} key={Text.quote s.key} ancestors={ancestors}"

namespace Evaluation

/-- What a caller hands over: a value, or a record already. -/
inductive Raw (α : Type) where
  | value (v : Value)
  | record (r : α)
  deriving Repr

/-- What a rejection shows of a subject. -/
def Raw.shown : Raw Subject → Value
  | value v => v
  | record s => .text s.display

/-- Adapt a record that goes by a name. -/
def adaptRecord {α : Type} (name : String) (adapter? : Option Adapter) (record : α) :
    Except Error α :=
  match adapter? with
  | none | some .identity => .ok record
  | some (.failing text) => .error (.thrown "RuntimeError" (.text text))
  | some .unimplemented => .error (.misuse .notAbstract)
  | some .fields => .error (.misuse (.notIndexable name))

/-- Adapt and read one membership, or take it as it is. -/
def readRawMembership (e : Engine) : Raw Membership → Except Error Membership
  | .value v => readMembership e v
  | .record m => adaptRecord Membership.recordName e.membershipAdapter? m

/-- Adapt and read the subject, or take it as it is. -/
def readRawSubject (e : Engine) : Raw Subject → Except Error Subject
  | .value v => readSubject e v
  | .record s => adaptRecord Subject.recordName e.subjectAdapter? s

/-- Adapt and read the whole input, or the first failure. -/
def readRawInput (e : Engine) (memberships : List (Raw Membership)) (subject : Raw Subject) :
    Except Error Input := do
  let subject ← readRawSubject e subject
  let memberships ← memberships.mapM (readRawMembership e)
  return { memberships, subject }

/-- Resolve the input of a query; a rejected input makes a record. -/
def queryRaw (e : Engine) (memberships : List (Raw Membership)) (subject : Raw Subject) :
    Answer (Option Resolution) :=
  match readRawInput e memberships subject with
  | .ok input => { value := some (resolve e.graph input) }
  | .error error => { value := none, records := [rejection e subject.shown error] }

/-- Decide an action for a resolved input, with what the answer rests on. -/
def explainResolved (e : Engine) (resolved : Answer (Option Resolution)) (action : Value) :
    Answer Decision :=
  match resolved.value, Name.ofValue? action with
  | some r, some name =>
    let decision := decide e.compiler.published r name
    { value := decision
      records := resolved.records ++
        (if e.config.logDecisions then [decisionRecord e r decision] else []) }
  | _, _ =>
    { value := { allowed := false, action := .plain action.display, actionKey := "" }
      records := resolved.records }

/-- Decide an action on a subject for the holder of memberships, with what the answer rests on. -/
def explainRaw (e : Engine) (memberships : List (Raw Membership)) (action : Value)
    (subject : Raw Subject) : Answer Decision :=
  explainResolved e (queryRaw e memberships subject) action

/-- Whether the holder of memberships may do an action on a subject. -/
def isAllowedRaw (e : Engine) (memberships : List (Raw Membership)) (action : Value)
    (subject : Raw Subject) : Answer Bool :=
  let explained := explainRaw e memberships action subject
  { value := explained.value.allowed, records := explained.records }

/-- Every declared action with whether it is allowed on a subject, and the actions allowed on the
entities that the subject gates. -/
def getActorPoliciesRaw (e : Engine) (memberships : List (Raw Membership)) (subject : Raw Subject) :
    Answer Policy.Actions :=
  let resolved := queryRaw e memberships subject
  { value := (resolved.value.map (actorPolicies e.graph e.compiler.published)).getD []
    records := resolved.records }

end Evaluation

end AccessMatrix
