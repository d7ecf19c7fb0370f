import AccessMatrix.Engine
import AccessMatrix.Log.Preview
import AccessMatrix.Membership
import AccessMatrix.Value.Item

/-!
# Query input

Memberships and the subject of a query come in any shape. Each is adapted if an adapter is
installed, then read as a record, the subject first. One failure rejects the whole input.
-/

namespace AccessMatrix.Evaluation

/-- The value under a text in a record of an application. -/
def fieldOf (raw : Value) (key : String) : Except Error Value := Error.ofMisuse (raw.item (.text key))

/-- Read a value as a record, naming the record in the error. -/
def readAs {α : Type} (name : String) (check : Value → Validation.Checked α) (value : Value) :
    Except Error α :=
  (check value).mapError (Error.invalid name)

/-- The membership in a record of an application. -/
def membershipOfFields (raw : Value) : Except Error Membership := do
  let context ← fieldOf raw "type"
  let key ← fieldOf raw "id"
  let role ← fieldOf raw "role"
  let parents :=
    match raw with
    | .mapping entries => ((Value.field? entries "parents").filter Value.isTruthy).getD (.mapping [])
    | _ => .mapping []
  readAs Membership.recordName Membership.ofValue (.ofFields
    [("context_name", context), ("context_key", key), ("role_name", role), ("ancestors", parents)])

/-- The subject in a record of an application. -/
def subjectOfFields (raw : Value) : Except Error Subject := do
  let name ← fieldOf raw "entity"
  let key ← fieldOf raw "id"
  let organization ← fieldOf raw "org_id"
  readAs Subject.recordName Subject.ofValue (.ofFields
    [("name", name), ("key", key), ("ancestors", .ofFields [("org", organization)])])

/-- Adapt and read one raw record. -/
def adapt {α : Type} (adapter? : Option Adapter) (read ofFields : Value → Except Error α)
    (raw : Value) : Except Error α :=
  match adapter? with
  | none | some .identity => read raw
  | some (.failing text) => .error (.thrown "RuntimeError" (.text text))
  | some .unimplemented => .error (.misuse .notAbstract)
  | some .fields => ofFields raw

/-- Adapt and read one membership. -/
def readMembership (e : Engine) (raw : Value) : Except Error Membership :=
  adapt e.membershipAdapter? (readAs Membership.recordName Membership.ofValue) membershipOfFields
    raw

/-- Adapt and read the subject. -/
def readSubject (e : Engine) (raw : Value) : Except Error Subject :=
  adapt e.subjectAdapter? (readAs Subject.recordName Subject.ofValue) subjectOfFields raw

/-- The raw memberships; whatever counts as not given has none. -/
def rawMemberships (memberships : Value) : Except Error (List Value) :=
  if memberships.isTruthy then Error.ofMisuse memberships.iterate else .ok []

/-- The input of a query. -/
structure Input where
  memberships : List Membership
  subject : Subject
  deriving DecidableEq, Repr

/-- Adapt and read the whole input, or the first failure. -/
def readInput (e : Engine) (memberships subject : Value) : Except Error Input := do
  let subject ← readSubject e subject
  let raws ← rawMemberships memberships
  let memberships ← raws.mapM (readMembership e)
  return { memberships, subject }

/-- The limit of the previews of failures. -/
def failureLimit : Int := 160

/-- The text of a failure in a record: a preview of its message. -/
def failureText (error : Error) : String := Log.previewOfText failureLimit error.message

/-- The record of a rejected input. -/
def rejection (e : Engine) (subject : Value) (error : Error) : Log.Record :=
  let shown := Log.preview Log.defaultLimit subject
  .ofEngine .warning e.name
    s!"Rejected malformed evaluation input ({error.kind}: {failureText error}); subject={shown}"

end AccessMatrix.Evaluation
