import AccessMatrix.Proofs.Policy.Matrix

/-!
# The compiled index

The index of a snapshot holds the key of a cell under the key of an action exactly if the cell allows
the action. Both keys show labels, which a later graph still has for what the cells name by texts.
-/

namespace AccessMatrix

namespace Graph

/-- The label of a role of a registered entity; any other name is its own. -/
def roleLabelOf (g : Graph) (name role : String) : Name :=
  ((g.roleLabelsOf name).find? fun label => label.text = role).getD (.plain role)

/-- A slot with its parts labelled. -/
def labelled (g : Graph) (slot : Policy.Slot) : Policy.LabelledSlot where
  context := g.labelOf slot.context
  role := g.roleLabelOf slot.context slot.role
  subject := g.labelOf slot.subject
  subjectRole := slot.subjectRole.map (g.roleLabelOf slot.subject)

/-- A label has the text of what it labels. -/
theorem text_labelOf (g : Graph) (name : String) : (g.labelOf name).text = name := by
  rw [labelOf]
  cases hfind : g.find? name with
  | none => rfl
  | some e => exact name_of_find? hfind

/-- The label of a role has the text of the role. -/
theorem text_roleLabelOf (g : Graph) (name role : String) : (g.roleLabelOf name role).text = role := by
  rw [roleLabelOf]
  cases hfind : (g.roleLabelsOf name).find? fun label => label.text = role with
  | none => rfl
  | some label => simpa using List.find?_some hfind

/-- A registered entity is labelled as it was, also in a later graph. -/
theorem labelOf_of_within {g later : Graph} (hwithin : g.Within later) (hlater : later.WellNamed)
    {e : Entity} (he : e ∈ g.entities) : later.labelOf e.name = e.label := by
  obtain ⟨e', he', hsame⟩ := hwithin e he
  have hfind : later.find? e.name = some e' :=
    (find?_eq_some_iff hlater.names_nodup).mpr ⟨he', hsame.name⟩
  simp [labelOf, hfind, hsame.label]

/-- The roles of a registered entity are labelled as they were, also in a later graph. -/
theorem roleLabelsOf_of_within {g later : Graph} (hwithin : g.Within later)
    (hlater : later.WellNamed) {e : Entity} (he : e ∈ g.entities) :
    later.roleLabelsOf e.name = e.roleLabels := by
  obtain ⟨e', he', hsame⟩ := hwithin e he
  have hfind : later.find? e.name = some e' :=
    (find?_eq_some_iff hlater.names_nodup).mpr ⟨he', hsame.name⟩
  simp [roleLabelsOf, hfind, hsame.roleLabels]

/-- A role of a registered entity is labelled as it was, also in a later graph. -/
theorem roleLabelOf_of_within {g later : Graph} (hwithin : g.Within later)
    (hlater : later.WellNamed) {e : Entity} (he : e ∈ g.entities) {role : Name}
    (hrole : role ∈ e.roleLabels) : later.roleLabelOf e.name role.text = role := by
  obtain ⟨e', he', hsame⟩ := hwithin e he
  have hnodup : (e.roleLabels.map Name.text).Nodup := by
    rw [← hsame.roleLabels]
    exact (hlater.entity e' he').roles_nodup
  rw [roleLabelOf, roleLabelsOf_of_within hwithin hlater he, find?_eq_some_of_nodup hnodup hrole, Option.getD_some]

end Graph

namespace Policy.Snapshot

/-- Adding a grant adds its key under its action and nothing else. -/
theorem mem_allow {allowance : Table String (List String)} {grant : String × String}
    {action key : String} :
    key ∈ ((allow allowance grant).get? action).getD [] ↔
      key ∈ (allowance.get? action).getD [] ∨ grant = (action, key) := by
  obtain ⟨granted, place⟩ := grant
  rw [allow]
  split
  · rename_i hknown
    refine (or_iff_left_of_imp ?_).symm
    intro hgrant
    cases hgrant
    exact hknown
  · rw [Table.get?_put, Prod.mk.injEq]
    by_cases hgranted : granted = action
    · subst hgranted
      simp [eq_comm]
    · simp [hgranted]

/-- An index holds what was granted. -/
theorem mem_index {grants : List (String × String)} {action key : String} :
    key ∈ ((index grants).get? action).getD [] ↔ (action, key) ∈ grants := by
  induction grants using List.reverseRecOn with
  | nil => simp [index, Table.get?_nil]
  | append_singleton grants grant ih =>
    have hconcat : index (grants ++ [grant]) = allow (index grants) grant := by simp [index]
    rw [hconcat, mem_allow, ih, List.mem_append, List.mem_singleton, eq_comm (a := grant)]

/-- The index of a compilation holds the keys of the slots that allow an action. -/
theorem mem_keysFor_compile {g : Graph} {round : Round} {shown key : String} :
    key ∈ (compile g round).keysFor shown ↔
      ∃ place ∈ slots g, ∃ action ∈ round.actions,
        allows (round.resolve g) place.slot action.text = true ∧
          actionKey place.subject.display action.display = shown ∧ place.key = key := by
  rw [keysFor, compile, mem_index, List.mem_flatMap]
  simp only [grantsOf, List.mem_map, List.mem_filter, Prod.mk.injEq]
  constructor
  · intro hgrant
    obtain ⟨place, hplace, action, ⟨haction, hallows⟩, hshown, hkey⟩ := hgrant
    exact ⟨place, hplace, action, haction, hallows, hshown, hkey⟩
  · intro hplace
    obtain ⟨place, hplace, action, haction, hallows, hshown, hkey⟩ := hplace
    exact ⟨place, hplace, action, ⟨haction, hallows⟩, hshown, hkey⟩

/-- The parts of a slot of the matrix are labels of registered entities and of their roles. -/
theorem parts_of_mem_slots {g : Graph} {place : LabelledSlot} (h : place ∈ slots g) :
    ∃ context ∈ g.entities, ∃ subject ∈ g.entities,
      place.context = context.label ∧ place.role ∈ context.roleLabels ∧
        place.subject = subject.label ∧
        ∀ label, place.subjectRole = some label → label ∈ subject.roleLabels := by
  obtain ⟨context, hcontext, h⟩ := List.mem_flatMap.mp h
  obtain ⟨role, hrole, h⟩ := List.mem_flatMap.mp h
  obtain ⟨subject, hsubject, h⟩ := List.mem_flatMap.mp h
  refine ⟨context, (List.mem_filter.mp hcontext).1, subject, hsubject, ?_⟩
  rw [slotsOver] at h
  split at h
  · contradiction
  · obtain ⟨subjectRole, hsubjectRole, rfl⟩ := List.mem_map.mp h
    refine ⟨rfl, hrole, rfl, ?_⟩
    intro label hlabel
    subst hlabel
    simpa using (List.mem_filter.mp hsubjectRole).1

/-- What a cell names by texts is labelled in a later graph as it was when the cell was made. -/
theorem labelled_slot {g later : Graph} (hwithin : g.Within later) (hlater : later.WellNamed)
    {place : LabelledSlot} (h : place ∈ slots g) : later.labelled place.slot = place := by
  obtain ⟨context, hcontext, subject, hsubject, hlabel, hrole, hsubjectLabel, hsubjectRoles⟩ :=
    parts_of_mem_slots h
  obtain ⟨placeContext, role, placeSubject, subjectRole⟩ := place
  dsimp only at hlabel hrole hsubjectLabel hsubjectRoles
  subst hlabel hsubjectLabel
  have hcontextLabel := Graph.labelOf_of_within hwithin hlater hcontext
  have hroleLabel := Graph.roleLabelOf_of_within hwithin hlater hcontext hrole
  have hsubjectLabel := Graph.labelOf_of_within hwithin hlater hsubject
  rw [Graph.labelled, LabelledSlot.mk.injEq]
  refine ⟨hcontextLabel, hroleLabel, hsubjectLabel, ?_⟩
  cases subjectRole with
  | none => rfl
  | some label =>
    exact congrArg some (Graph.roleLabelOf_of_within hwithin hlater hsubject (hsubjectRoles label rfl))

/-- The parts of a cell name registered entities and their roles, also in a later graph. -/
theorem parts_of_mem_cells {g later : Graph} (hwithin : g.Within later) {round : Round} {cell : Cell}
    (h : cell ∈ (compile g round).cells) :
    ∃ context ∈ later.entities, ∃ subject ∈ later.entities,
      context.name = cell.context ∧ cell.role ∈ context.roles ∧ subject.name = cell.subject ∧
        ∀ subjectRole, cell.subjectRole = some subjectRole → subjectRole ∈ subject.roles := by
  obtain ⟨context, hcontext, subject, hsubject, hname, hrole, hsubjectName, hroles, -, -⟩ :=
    inMatrix_of_mem_cells h
  obtain ⟨context', hcontext', hsame⟩ := hwithin context (List.mem_filter.mp hcontext).1
  obtain ⟨subject', hsubject', hsame'⟩ := hwithin subject hsubject
  refine ⟨context', hcontext', subject', hsubject', hsame.name.trans hname, ?_,
    hsame'.name.trans hsubjectName, fun subjectRole h => ?_⟩
  · rw [hsame.roles]
    exact hrole
  · rw [hsame'.roles]
    exact hroles subjectRole h

/-- A cell allows an action, and its keys are shown like an action's and a slot's. -/
def Grants (g : Graph) (s : Snapshot) (shown key : String) : Prop :=
  ∃ cell ∈ s.cells, ∃ action ∈ s.actions, cell.actions.get? action.text = some true ∧
    actionKey (g.labelOf cell.subject).display action.display = shown ∧
      (g.labelled cell.slot).key = key

/-- The index of a compilation is told from its cells, also by a later graph. -/
theorem mem_keysFor_iff {g later : Graph} (hwithin : g.Within later) (hlater : later.WellNamed)
    {round : Round} {shown key : String} :
    key ∈ (compile g round).keysFor shown ↔ Grants later (compile g round) shown key := by
  rw [mem_keysFor_compile]
  constructor
  · intro hplace
    obtain ⟨place, hplace, action, haction, hallows, hshown, hkey⟩ := hplace
    have hlabelled := labelled_slot hwithin hlater hplace
    have hcell : cellOf round.actions (round.resolve g) place.slot ∈ (compile g round).cells :=
      List.mem_map_of_mem hplace
    refine ⟨_, hcell, action, haction, ?_, ?_, ?_⟩
    · exact (get?_of_mem_cells hcell _).mpr ⟨List.mem_map_of_mem haction, hallows⟩
    · have hsubject : later.labelOf place.slot.subject = place.subject :=
        congrArg LabelledSlot.subject hlabelled
      change actionKey (later.labelOf place.slot.subject).display action.display = shown
      rw [hsubject, hshown]
    · exact (congrArg LabelledSlot.key hlabelled).trans hkey
  · intro hgrants
    obtain ⟨cell, hcell, action, haction, hallowed, hshown, hkey⟩ := hgrants
    obtain ⟨-, hallows⟩ := (get?_of_mem_cells hcell _).mp hallowed
    obtain ⟨place, hplace, rfl⟩ := List.mem_map.mp hcell
    have hlabelled := labelled_slot hwithin hlater hplace
    refine ⟨place, hplace, action, haction, hallows, ?_, ?_⟩
    · have hsubject : later.labelOf place.slot.subject = place.subject :=
        congrArg LabelledSlot.subject hlabelled
      change actionKey (later.labelOf place.slot.subject).display action.display = shown at hshown
      rw [← hshown, hsubject]
    · exact (congrArg LabelledSlot.key hlabelled).symm.trans hkey

end Policy.Snapshot

end AccessMatrix
