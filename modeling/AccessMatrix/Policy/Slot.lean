import AccessMatrix.Policy.Keys
import AccessMatrix.Value.Name

/-!
# Slots

A slot is the place of a cell. Slots are told apart by the texts of their parts; a labelled slot
also says how the parts are shown, which is how they stand in keys and in warnings.
-/

namespace AccessMatrix.Policy

/-- The place of a cell: context, role, subject, and role on the subject. -/
structure Slot where
  context : String
  role : String
  subject : String
  subjectRole : Option String
  deriving DecidableEq, Repr

/-- A slot with its parts as they are shown. -/
structure LabelledSlot where
  context : Name
  role : Name
  subject : Name
  subjectRole : Option Name
  deriving DecidableEq, Repr

namespace LabelledSlot

/-- The slot that is labelled. -/
def slot (s : LabelledSlot) : Slot :=
  ⟨s.context.text, s.role.text, s.subject.text, s.subjectRole.map Name.text⟩

/-- The parts of a slot as warnings name them. -/
def parts (s : LabelledSlot) : List String :=
  [s.context.display, s.role.display, s.subject.display,
    (s.subjectRole.map Name.display).getD "None"]

/-- The key of the cell in a slot. -/
def key (s : LabelledSlot) : String :=
  accessKey s.context.display (some s.role.display) s.subject.display
    (s.subjectRole.map Name.display)

end LabelledSlot

end AccessMatrix.Policy
