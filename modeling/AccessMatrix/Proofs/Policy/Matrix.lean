import AccessMatrix.Proofs.Policy.Tiers

/-!
# The compiled matrix

A build makes one cell for every slot of the matrix and none besides. Every cell lists the same
actions, and allows those that the declarations governing its slot allow.
-/

namespace AccessMatrix.Policy

/-- The slot that a cell is in. -/
def Cell.slot (cell : Cell) : Slot := ⟨cell.context, cell.role, cell.subject, cell.subjectRole⟩

namespace Compiler

/-- Record declarations one after the other in the current round. -/
def recordAll (c : Compiler) (ds : List Declaration) : Compiler :=
  ds.foldl (fun c d => (c.record c.current d).1) c

theorem recordAll_concat (c : Compiler) (ds : List Declaration) (d : Declaration) :
    c.recordAll (ds ++ [d]) = ((c.recordAll ds).record (c.recordAll ds).current d).1 := by
  simp [recordAll]

/-- Recording neither begins a round nor makes another one current. -/
theorem current_recordAll (c : Compiler) (ds : List Declaration) :
    (c.recordAll ds).current = c.current ∧ (c.recordAll ds).rounds.length = c.rounds.length := by
  induction ds using List.reverseRecOn with
  | nil => exact ⟨rfl, rfl⟩
  | append_singleton ds d ih =>
    rw [recordAll_concat]
    exact ⟨ih.1, by simpa [record] using ih.2⟩

/-- What was declared since the declarations were last dropped makes up the current round. -/
theorem round_recordAll_clear (c : Compiler) (ds : List Declaration) :
    (c.clear.recordAll ds).round (c.clear.recordAll ds).current = Round.ofDeclarations ds := by
  induction ds using List.reverseRecOn with
  | nil => exact round_stage_new c
  | append_singleton ds d ih =>
    obtain ⟨hcurrent, hlength⟩ := current_recordAll c.clear ds
    have hbegun : (c.clear.recordAll ds).current < (c.clear.recordAll ds).rounds.length := by
      rw [hcurrent, hlength]
      simp [clear, stage]
    rw [recordAll_concat, Round.ofDeclarations_concat, ← ih]
    exact (round_record _ _ _ d hbegun).trans (if_pos rfl)

end Compiler

namespace Snapshot

/-- The slots of a role over a subject are those of its roles and of none, as far as they are in the
matrix. -/
theorem mem_slotsOver {context : Entity} {role : Name} {subject : Entity} {slot : Slot} :
    slot ∈ (slotsOver context role subject).map LabelledSlot.slot ↔
      slot.context = context.name ∧ slot.role = role.text ∧ slot.subject = subject.name ∧
        (∀ subjectRole, slot.subjectRole = some subjectRole → subjectRole ∈ subject.roles) ∧
        slot.context ∉ subject.descendants ∧
        (slot.context = slot.subject → slot.subjectRole = some slot.role) := by
  have hscope (scope : Option Name) :
      scope ∈ subject.roleLabels.map some ++ [none] ↔
        ∀ label, scope = some label → label ∈ subject.roleLabels := by
    cases scope <;> simp
  have hown (scope : Option Name) :
      (context.name ≠ subject.name || Option.map Name.text scope = some role.text) = true ↔
        (context.name = subject.name → scope.map Name.text = some role.text) := by
    simp [or_iff_not_imp_left]
  rw [slotsOver]
  split
  · rename_i habove
    simp only [List.map_nil, List.not_mem_nil, false_iff]
    intro hslot
    obtain ⟨hcontext, -, -, -, hbelow, -⟩ := hslot
    exact hbelow (hcontext ▸ habove)
  · rename_i hbelow
    simp only [List.map_map, List.mem_map, List.mem_filter, hscope, hown, Function.comp_apply]
    constructor
    · intro hmade
      obtain ⟨scope, ⟨hlabels, howned⟩, rfl⟩ := hmade
      refine ⟨rfl, rfl, rfl, ?_, hbelow, howned⟩
      intro subjectRole hrole
      obtain ⟨label, rfl, rfl⟩ := Option.map_eq_some_iff.mp hrole
      exact List.mem_map_of_mem (hlabels label rfl)
    · obtain ⟨slotContext, slotRole, slotSubject, slotSubjectRole⟩ := slot
      intro hslot
      obtain ⟨rfl, rfl, rfl, hroles, -, howned⟩ := hslot
      cases slotSubjectRole with
      | none => exact ⟨none, ⟨by simp, howned⟩, rfl⟩
      | some subjectRole =>
        obtain ⟨label, hlabel, rfl⟩ := List.mem_map.mp (hroles subjectRole rfl)
        exact ⟨some label, ⟨by simpa using hlabel, howned⟩, rfl⟩

/-- The slots that a compilation makes are those of the matrix. -/
theorem mem_slots {g : Graph} {slot : Slot} :
    slot ∈ (slots g).map LabelledSlot.slot ↔ InMatrix g slot := by
  simp only [slots, List.map_flatMap, List.mem_flatMap, mem_slotsOver]
  constructor
  · intro hmade
    obtain ⟨context, hcontext, role, hrole, subject, hsubject, hname, hroleName, hsubjectName, h⟩ :=
      hmade
    exact ⟨context, hcontext, subject, hsubject, hname.symm, hroleName ▸ List.mem_map_of_mem hrole,
      hsubjectName.symm, h⟩
  · intro hslot
    obtain ⟨context, hcontext, subject, hsubject, hname, hrole, hsubjectName, h⟩ := hslot
    obtain ⟨role, hrole, hroleName⟩ := List.mem_map.mp hrole
    exact ⟨context, hcontext, role, hrole, subject, hsubject, hname.symm, hroleName.symm,
      hsubjectName.symm, h⟩

/-- Over one subject no slot is made twice. -/
theorem nodup_slotsOver {context : Entity} {role : Name} {subject : Entity}
    (hroles : subject.roles.Nodup) :
    ((slotsOver context role subject).map LabelledSlot.slot).Nodup := by
  refine List.Nodup.of_map Slot.subjectRole ?_
  rw [slotsOver]
  split
  · exact List.nodup_nil
  · have hscopes : ((subject.roleLabels.map some ++ [none]).map (Option.map Name.text)).Nodup := by
      have hmap : (subject.roleLabels.map some ++ [none]).map (Option.map Name.text) =
          subject.roles.map some ++ [none] := by
        simp [Entity.roles]
      rw [hmap]
      refine List.nodup_append.mpr ⟨hroles.map fun _ _ => Option.some.inj, List.nodup_singleton _, ?_⟩
      simp
    rw [List.map_map, List.map_map]
    exact hscopes.sublist (List.filter_sublist.map _)

/-- No slot of the matrix is made twice. -/
theorem nodup_slots {g : Graph} (hg : g.WellNamed) : ((slots g).map LabelledSlot.slot).Nodup := by
  have hcontexts : (g.contexts.map Entity.name).Nodup :=
    hg.names_nodup.sublist (List.filter_sublist.map _)
  simp only [slots, List.map_flatMap]
  refine nodup_flatMap_of_mark Slot.context Entity.name ?_ hcontexts ?_
  · intro context _ slot hslot
    obtain ⟨role, -, hslot⟩ := List.mem_flatMap.mp hslot
    obtain ⟨subject, -, hslot⟩ := List.mem_flatMap.mp hslot
    exact (mem_slotsOver.mp hslot).1
  intro context hcontext
  have hroles := (hg.entity context (List.mem_filter.mp hcontext).1).roles_nodup
  refine nodup_flatMap_of_mark Slot.role Name.text ?_ hroles ?_
  · intro role _ slot hslot
    obtain ⟨subject, -, hslot⟩ := List.mem_flatMap.mp hslot
    exact (mem_slotsOver.mp hslot).2.1
  intro role _
  refine nodup_flatMap_of_mark Slot.subject Entity.name ?_ hg.names_nodup ?_
  · intro subject _ slot hslot
    exact (mem_slotsOver.mp hslot).2.2.1
  intro subject hsubject
  exact nodup_slotsOver (hg.entity subject hsubject).roles_nodup

/-- The cells of a compilation are in the slots of the matrix, in their order. -/
theorem slots_compile (g : Graph) (round : Round) :
    (compile g round).cells.map Cell.slot = (slots g).map LabelledSlot.slot := by
  simp [compile, Function.comp_def, Cell.slot, cellOf]

/-- Every cell of a compilation is in a slot of the matrix. -/
theorem inMatrix_of_mem_cells {g : Graph} {round : Round} {cell : Cell}
    (h : cell ∈ (compile g round).cells) : InMatrix g cell.slot := by
  rw [← mem_slots, ← slots_compile g round]
  exact List.mem_map_of_mem h

/-- A cell lists every action of its snapshot. -/
theorem keys_of_mem_cells {g : Graph} {round : Round} {cell : Cell}
    (h : cell ∈ (compile g round).cells) :
    cell.actions.keys = (compile g round).actions.map Name.text := by
  obtain ⟨place, -, rfl⟩ := List.mem_map.mp h
  simp [cellOf, Table.keys, compile]

/-- A cell lists the actions of its snapshot, each allowed if it was declared as allowed in the slot. -/
theorem actions_of_mem_cells {g : Graph} {round : Round} {cell : Cell}
    (h : cell ∈ (compile g round).cells) (action : String) :
    cell.actions.get? action =
      if action ∈ (compile g round).actions.map Name.text
        then some (allows (round.resolve g) cell.slot action) else none := by
  obtain ⟨place, -, rfl⟩ := List.mem_map.mp h
  change Table.get? (round.actions.map fun other =>
    (other.text, allows (round.resolve g) place.slot other.text)) action =
      if action ∈ round.actions.map Name.text
        then some (allows (round.resolve g) place.slot action) else none
  induction round.actions with
  | nil => rfl
  | cons other rest ih =>
    rw [List.map_cons, Table.get?_cons, List.map_cons]
    by_cases hother : other.text = action
    · simp [hother]
    · simp only [hother, if_false, ih, List.mem_cons, Ne.symm hother, false_or]

/-- A cell allows the actions of its snapshot that were declared as allowed in its slot. -/
theorem get?_of_mem_cells {g : Graph} {round : Round} {cell : Cell}
    (h : cell ∈ (compile g round).cells) (action : String) :
    cell.actions.get? action = some true ↔
      action ∈ (compile g round).actions.map Name.text ∧
        allows (round.resolve g) cell.slot action = true := by
  rw [actions_of_mem_cells h, Option.ite_none_right_eq_some, Option.some.injEq]

end Snapshot

/-- What governs a slot allows only actions that its round knows. -/
theorem mem_actions_of_governing {g : Graph} {ds : List Declaration} {slot : Slot} {action : String}
    {allowed : Bool} (h : ((governing g ds slot).getD []).get? action = some allowed) :
    action ∈ (Round.ofDeclarations ds).actions.map Name.text := by
  cases hgoverning : governing g ds slot with
  | none => simp [hgoverning, Table.get?_nil] at h
  | some actions =>
    obtain ⟨d, hd, rfl⟩ := governing_mem hgoverning
    rw [hgoverning] at h
    exact Round.mem_actions_of_declared hd h

/-- The precedence rule of the matrix. Whatever was declared since the declarations were last
dropped, a build knows every action that was mentioned, once and in the order of the mentions; it
makes exactly one cell for every slot of the matrix; and every cell lists these actions and allows
those that the actions governing its slot allow. -/
theorem build_follows_precedence {g : Graph} (hg : g.Registered) (c : Compiler)
    (ds : List Declaration) :
    let snapshot := ((c.clear.recordAll ds).build g).published
    snapshot.actions.map Name.text =
        (ds.flatMap fun d => d.actions.map fun entry => entry.1.text).eraseDups ∧
      (snapshot.cells.map Cell.slot).Nodup ∧
      (∀ slot, slot ∈ snapshot.cells.map Cell.slot ↔ InMatrix g slot) ∧
      ∀ cell ∈ snapshot.cells,
        cell.actions.keys = snapshot.actions.map Name.text ∧
          ∀ action, cell.actions.get? action = some true ↔
            ((governing g ds cell.slot).getD []).get? action = some true := by
  intro snapshot
  have hsnapshot : snapshot = .compile g (Round.ofDeclarations ds) :=
    congrArg (Snapshot.compile g) (Compiler.round_recordAll_clear c ds)
  rw [hsnapshot]
  refine ⟨Round.actions_ofDeclarations ds, ?_, ?_, fun cell hcell => ⟨?_, fun action => ?_⟩⟩
  · rw [Snapshot.slots_compile]
    exact Snapshot.nodup_slots hg.wellNamed
  · intro slot
    rw [Snapshot.slots_compile, Snapshot.mem_slots]
  · exact Snapshot.keys_of_mem_cells hcell
  · have hslot : InMatrix g cell.slot := by
      rw [← Snapshot.mem_slots, ← Snapshot.slots_compile g (Round.ofDeclarations ds)]
      exact List.mem_map_of_mem hcell
    rw [Snapshot.get?_of_mem_cells hcell, Snapshot.allows, get?_resolve hg ds hslot,
      Option.getD_eq_iff, or_iff_left (by simp)]
    exact and_iff_right_of_imp mem_actions_of_governing

/-- An organization above a course. -/
def schoolRegistrations : List Registration :=
  [{ kind := .context, name := .text "org", roles := .ofTexts ["admin"] },
    { kind := .context, name := .text "course", roles := .ofTexts ["staff"],
      parents := .each [.own "org"] }]

/-- The staff of a course reads it. -/
def staffDeclaration : Declaration where
  context := .plain "course"
  role := .plain "staff"
  subject := .plain "course"
  actions := [(.plain "read", true)]

/-- The rule at work: an admin of the organization who is staff of the course reads it too, because
the declaration of the course on itself stands in for one of the organization. -/
theorem build_follows_precedence_school :
    ∃ g, Graph.registerAll {} schoolRegistrations = some g ∧ g.Registered ∧
      ∃ cell ∈ ((Compiler.recordAll (Compiler.clear {}) [staffDeclaration]).build g).published.cells,
        cell.slot = ⟨"org", "admin", "course", some "staff"⟩ ∧
          cell.actions.get? "read" = some true := by
  have hregister : Graph.registerAll {} schoolRegistrations =
      some ((Graph.registerAll {} schoolRegistrations).getD {}) := by
    decide +kernel
  have hg := Graph.Registered.empty.registerAll hregister
  refine ⟨_, hregister, hg, ?_⟩
  obtain ⟨-, -, -, hcells⟩ := build_follows_precedence hg {} [staffDeclaration]
  have hslot : (⟨"org", "admin", "course", some "staff"⟩ : Slot) ∈
      ((Compiler.recordAll (Compiler.clear {}) [staffDeclaration]).build
        ((Graph.registerAll {} schoolRegistrations).getD {})).published.cells.map Cell.slot := by
    decide +kernel
  obtain ⟨cell, hcell, hslot⟩ := List.mem_map.mp hslot
  refine ⟨cell, hcell, hslot, ((hcells cell hcell).2 "read").mpr ?_⟩
  rw [hslot]
  decide +kernel

end AccessMatrix.Policy
