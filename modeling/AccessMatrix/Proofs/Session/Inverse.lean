import AccessMatrix.Proofs.Policy.Lookup
import AccessMatrix.Proofs.Policy.Provenance
import AccessMatrix.Proofs.Session.Declaring
import AccessMatrix.Proofs.Session.Story

/-!
# The index as the inverse of the matrix

The index of a snapshot says of every action on a subject which cells grant it, and the cells say of
every slot which actions are granted. The one is the inverse of the other. Keys show names as they were
registered and declared, so for names that were given as texts the index is told from the texts of the
cells alone. And an action is granted by a cell only if a request was accepted that maps the action to a
switch which is on, on the subject of the cell.
-/

namespace AccessMatrix

open Outcome

namespace Policy

/-- A slot all whose parts were given as texts. -/
def LabelledSlot.IsPlain (place : LabelledSlot) : Prop :=
  place.context.IsPlain ∧ place.role.IsPlain ∧ place.subject.IsPlain ∧
    ∀ label ∈ place.subjectRole, label.IsPlain

instance (place : LabelledSlot) : Decidable place.IsPlain :=
  inferInstanceAs (Decidable (_ ∧ _ ∧ _ ∧ _))

/-- A slot with plain parts is shown in keys by its texts. -/
theorem LabelledSlot.IsPlain.key {place : LabelledSlot} (h : place.IsPlain) :
    place.key = place.slot.key := by
  obtain ⟨hcontext, hrole, hsubject, hsubjectRole⟩ := h
  have hshown : place.subjectRole.map Name.display = place.subjectRole.map Name.text :=
    Option.map_congr fun label hlabel => (hsubjectRole label hlabel).display
  rw [LabelledSlot.key, hcontext.display, hrole.display, hsubject.display, hshown]
  rfl

/-- A slot is what its labels name. -/
theorem slot_labelled (g : Graph) (slot : Slot) : (g.labelled slot).slot = slot := by
  have hsubjectRole : (slot.subjectRole.map (g.roleLabelOf slot.subject)).map Name.text =
      slot.subjectRole := by
    rw [Option.map_map]
    simp [Function.comp_def, Graph.text_roleLabelOf]
  simp only [Graph.labelled, LabelledSlot.slot, Graph.text_labelOf, Graph.text_roleLabelOf,
    hsubjectRole]

namespace Snapshot

/-- Whatever a snapshot grants, it grants in slots with plain parts, and by actions that are plain. -/
def GrantsPlainly (g : Graph) (s : Snapshot) : Prop :=
  ∀ cell ∈ s.cells, ∀ action ∈ s.actions, cell.actions.get? action.text = some true →
    (g.labelled cell.slot).IsPlain ∧ action.IsPlain

instance (g : Graph) (s : Snapshot) : Decidable (s.GrantsPlainly g) :=
  inferInstanceAs (Decidable (∀ cell ∈ s.cells, ∀ action ∈ s.actions, _ → _))

/-- Where all that is granted is plain, the keys of the index are made of the texts of the cells. -/
theorem mem_keysFor_iff_texts {g : Graph} (hg : g.WellNamed) {round : Round}
    (hplain : (compile g round).GrantsPlainly g) {shown key : String} :
    key ∈ (compile g round).keysFor shown ↔
      ∃ cell ∈ (compile g round).cells, ∃ action, cell.actions.get? action = some true ∧
        actionKey cell.subject action = shown ∧ cell.key = key := by
  have htexts {cell : Cell} (hcell : cell ∈ (compile g round).cells) {action : Name}
      (haction : action ∈ (compile g round).actions)
      (hgranted : cell.actions.get? action.text = some true) :
      actionKey (g.labelOf cell.subject).display action.display =
          actionKey cell.subject action.text ∧ (g.labelled cell.slot).key = cell.key := by
    obtain ⟨hslot, hname⟩ := hplain cell hcell action haction hgranted
    have hsubject : (g.labelOf cell.subject).display = cell.subject :=
      hslot.2.2.1.display.trans (g.text_labelOf cell.subject)
    rw [hsubject, hname.display, hslot.key, slot_labelled]
    exact ⟨rfl, rfl⟩
  rw [mem_keysFor_iff (.refl g) hg]
  constructor
  · intro h
    obtain ⟨cell, hcell, action, haction, hgranted, rfl, rfl⟩ := h
    obtain ⟨hshown, hkey⟩ := htexts hcell haction hgranted
    exact ⟨cell, hcell, action.text, hgranted, hshown.symm, hkey.symm⟩
  · intro h
    obtain ⟨cell, hcell, text, hgranted, rfl, rfl⟩ := h
    obtain ⟨hmem, -⟩ := (get?_of_mem_cells hcell text).mp hgranted
    obtain ⟨action, haction, rfl⟩ := List.mem_map.mp hmem
    exact ⟨cell, hcell, action, haction, hgranted, htexts hcell haction hgranted⟩

/-- No entry of an index is empty. -/
theorem ne_nil_of_mem_index {grants : List (String × String)} {entry : String × List String}
    (h : entry ∈ index grants) : entry.2 ≠ [] := by
  induction grants using List.reverseRecOn with
  | nil => exact absurd h List.not_mem_nil
  | append_singleton grants grant ih =>
    have hconcat : index (grants ++ [grant]) = allow (index grants) grant := by simp [index]
    rw [hconcat, allow] at h
    split at h
    · exact ih h
    · rcases Table.mem_put h with hbefore | rfl
      · exact ih hbefore
      · simp

end Snapshot

end Policy

namespace Session

open Policy (Round Declaration Snapshot Request)

/-- A step, other than a call of a setter or the one that drops the declarations. -/
def Command.keepsDeclarations : Command → Bool
  | .step (.callKept _ _) | .step .clear | .configure _ | .forEachSubject _ => false
  | .step _ => true

/-- Such a step declares what a request of a declaration says, if the request is accepted, and else
leaves the declarations as they are. -/
theorem declarations_of_keeps {s : Session} (h : s.world.Begun) {command : Command}
    (hcommand : command.keepsDeclarations = true) :
    (command.run s).2.2.world.declarations = s.world.declarations ∨
      ∃ r d, command = .step (.declare r) ∧ r.check s.engine.graph = .ok d ∧
        (command.run s).2.2.world.declarations = (s.world.declarations.add d).1 := by
  cases command with
  | configure rules => contradiction
  | forEachSubject rules => contradiction
  | step step =>
    change (step.run s).2.world.declarations = _ ∨
      ∃ r d, _ ∧ _ ∧ (step.run s).2.world.declarations = _
    have hgraph : (s.mentionAll step.mentions).2.engine.graph = s.engine.graph :=
      congrArg World.graph (world_mentionAll s step.mentions)
    rw [Step.world_run]
    rcases Step.ops_eq step s with hops | hops
    · exact .inl (by rw [hops]; rfl)
    rw [hops]
    unfold Step.performOps
    cases step with
    | callKept label given => contradiction
    | clear => contradiction
    | declare r =>
      dsimp only
      rw [hgraph]
      cases hcheck : r.check s.engine.graph with
      | error e => exact .inl rfl
      | ok d => exact .inr ⟨r, d, rfl, hcheck, (World.declarations_declare h d).1⟩
    | register r =>
      left
      change (s.world.apply (.register r)).declarations = _
      rw [World.apply]
      split <;> rfl
    | assignParents name parents =>
      left
      dsimp only
      split <;> rfl
    | _ => exact .inl rfl

/-- A declaration was made in the course of some commands: at its moment a request was valid that
declares it. -/
def MadeIn (s : Session) (commands : List Command) (d : Declaration) : Prop :=
  ∃ before r later context subject, commands = before ++ .step (.declare r) :: later ∧
    r.Valid (s.after before).engine.graph context subject ∧ r.Declares context subject d

/-- Commands lead from a world that is reached to another one. -/
theorem World.Reached.after {s : Session} (h : s.world.Reached) (commands : List Command) :
    (s.after commands).world.Reached := by
  obtain ⟨ops, hops⟩ := h
  exact ⟨_, hops.append (runs_opsOf s commands)⟩

/-- Where nothing is declared at first, and no setter is called and no declaration dropped, all that is
declared in the end was made on the way. -/
theorem declarations_made {s : Session} (h : s.world.Reached) (hempty : s.world.declarations = {})
    {commands : List Command}
    (hcommands : ∀ command ∈ commands, command.keepsDeclarations = true) :
    ∃ ds, (s.after commands).world.declarations = .ofDeclarations ds ∧
      ∀ d ∈ ds, s.MadeIn commands d := by
  induction commands using List.reverseRecOn with
  | nil => exact ⟨[], hempty, fun _ hd => absurd hd List.not_mem_nil⟩
  | append_singleton commands command ih =>
    obtain ⟨hbefore, hcommand⟩ := List.forall_mem_append.mp hcommands
    obtain ⟨ds, hds, hmade⟩ := ih hbefore
    have hreached := h.after commands
    have hnext : s.after (commands ++ [command]) = (command.run (s.after commands)).2.2 := by
      simp [Session.after]
    have hlonger : ∀ d ∈ ds, s.MadeIn (commands ++ [command]) d := by
      intro d hd
      obtain ⟨before, r, later, context, subject, rfl, hvalid⟩ := hmade d hd
      exact ⟨before, r, later ++ [command], context, subject, by simp, hvalid⟩
    rw [hnext]
    rcases declarations_of_keeps hreached.sound.begun (hcommand command (by simp)) with hsame |
      ⟨r, d, rfl, hcheck, hadded⟩
    · exact ⟨ds, hsame.trans hds, hlonger⟩
    · obtain ⟨context, subject, hvalid, hdeclares⟩ :=
        (Request.check_eq_ok_iff hreached.sound.wellNamed.names_nodup).mp hcheck
      refine ⟨ds ++ [d], ?_, List.forall_mem_append.mpr ⟨hlonger, ?_⟩⟩
      · rw [hadded, hds, Round.ofDeclarations_concat]
      · refine List.forall_mem_singleton.mpr ?_
        exact ⟨commands, r, [], context, subject, rfl, hvalid, hdeclares⟩

/-- A build publishes the compilation of what is declared. -/
theorem published_build (s : Session) (commands : List Command) :
    let before := s.after commands
    let last := s.after (commands ++ [.step .build])
    last.engine.graph = before.engine.graph ∧
      last.engine.compiler.published =
        Snapshot.compile before.engine.graph before.world.declarations := by
  intro before last
  have hlast : last = (Command.run (.step .build) before).2.2 := by
    simp [last, before, Session.after]
  rw [hlast]
  exact ⟨rfl, rfl⟩

/-- The index is the inverse of the matrix. Let nothing be declared at first, and let any steps follow
in which no setter is called and no declaration dropped: declarations that are accepted or not,
registrations, builds and questions. In the snapshot that a build publishes then, the index has the key
of a cell under the key of an action exactly if the cell grants the action, where both keys show names
as they were registered and declared. If whatever is granted is granted in slots and by actions whose
names were given as texts, the keys are those of the texts that stand in the cell. No entry of the index
is empty. And a cell grants an action only if on the way a request was accepted that maps the action,
on the subject of the cell, to true or to an integer other than zero. -/
theorem index_inverts_matrix {s : Session} (h : s.world.Reached)
    (hempty : s.world.declarations = {}) {commands : List Command}
    (hcommands : ∀ command ∈ commands, command.keepsDeclarations = true) :
    let last := s.after (commands ++ [.step .build])
    let g := last.engine.graph
    let published := last.engine.compiler.published
    (∀ shown key, key ∈ published.keysFor shown ↔ published.Grants g shown key) ∧
    (published.GrantsPlainly g → ∀ shown key, key ∈ published.keysFor shown ↔
      ∃ cell ∈ published.cells, ∃ action, cell.actions.get? action = some true ∧
        Policy.actionKey cell.subject action = shown ∧ cell.key = key) ∧
    (∀ entry ∈ published.allowance, entry.2 ≠ []) ∧
    (∀ cell ∈ published.cells, ∀ action, cell.actions.get? action = some true →
      ∃ before r later context subject entries value,
        commands = before ++ .step (.declare r) :: later ∧
        r.Valid (s.after before).engine.graph context subject ∧ subject.name = cell.subject ∧
        r.actions = .mapping entries ∧ Value.lookup entries (.text action) = some value ∧
        (value = .bool true ∨ ∃ n : Int, value = .int n ∧ n ≠ 0)) := by
  intro last g published
  obtain ⟨ds, hds, hmade⟩ := declarations_made h hempty hcommands
  obtain ⟨hgraph, hpublished⟩ := published_build s commands
  have hcompiled : published = .compile g (.ofDeclarations ds) := by
    rw [hds] at hpublished
    exact hpublished.trans (congrArg (Snapshot.compile · _) hgraph.symm)
  have hlast : last.world.Reached := h.after _
  have hg : g.WellNamed := hlast.sound.wellNamed
  rw [hcompiled]
  refine ⟨fun shown key => ?_, fun hplain shown key => ?_, fun entry hentry => ?_,
    fun cell hcell action hgranted => ?_⟩
  · exact Snapshot.mem_keysFor_iff (.refl g) hg
  · exact Snapshot.mem_keysFor_iff_texts hg hplain
  · exact Snapshot.ne_nil_of_mem_index hentry
  · obtain ⟨d, hd, hsubject, hallowed⟩ := Snapshot.declared_of_granted hcell hgranted
    obtain ⟨before, r, later, context, subject, hsplit, hvalid, hdeclares⟩ := hmade d hd
    obtain ⟨entries, hentries, hswitches⟩ := hdeclares.actions
    obtain ⟨value, hvalue, hon⟩ := Policy.lookup_of_switches hswitches hallowed
    refine ⟨before, r, later, context, subject, entries, value, hsplit, hvalid, ?_, hentries, hvalue,
      ?_⟩
    · rw [← hsubject, hdeclares.subject_label]
      rfl
    · exact hon.imp_right fun ⟨n, hn, hnonzero⟩ => ⟨n, hn, hnonzero.mp rfl⟩

/-- Declarations in an office: one that lets the admin write and sign, one for an item of the office
that comes later, and one for a role that the office does not have. -/
def inverseCommands : List Command :=
  [.step (.declare { context := .own "org", role := .text "admin", subject := .own "org",
                     actions := .mapping [(.text "write", .int 1), (.text "sign", .int (-3)),
                                          (.text "read", .int 0)] }),
    .step (.register { kind := .product, name := .text "item", parents := .each [.own "org"] }),
    .step (.declare { context := .own "org", role := .text "admin", subject := .own "item",
                      actions := .mapping [(.text "read", .bool true)] }),
    .step (.declare { context := .own "org", role := .text "staff", subject := .own "org",
                      actions := .mapping [(.text "erase", .bool true)] })]

/-- After these declarations the admin is found under the actions that were switched on, and under no
other, and what the admin may do with the item was declared for the item. -/
theorem index_inverts_matrix_office :
    let s := ({} : Session).after (officeCommands ++ [.step .clear])
    let last := s.after (inverseCommands ++ [.step .build])
    let published := last.engine.compiler.published
    s.world.Reached ∧ s.world.declarations = {} ∧
      (∀ command ∈ inverseCommands, command.keepsDeclarations = true) ∧
      published.GrantsPlainly last.engine.graph ∧
      "org-admin-org-admin" ∈ published.keysFor "org-sign" ∧
      "org-admin-org-admin" ∉ published.keysFor "org-read" ∧
      (∃ before r later, inverseCommands = before ++ .step (.declare r) :: later ∧
        ∃ subject, r.subject.Means (s.after before).engine.graph subject ∧
          subject.name = "item") := by
  intro s last published
  have hreached : s.world.Reached := World.reached_after _
  have hempty : s.world.declarations = {} := by decide +kernel
  have hcommands : ∀ command ∈ inverseCommands, command.keepsDeclarations = true := by
    decide +kernel
  obtain ⟨-, htexts, -, hmade⟩ := index_inverts_matrix hreached hempty hcommands
  have hplain : published.GrantsPlainly last.engine.graph := by decide +kernel
  have hsign : ∃ cell ∈ published.cells, cell.actions.get? "sign" = some true ∧
      Policy.actionKey cell.subject "sign" = "org-sign" ∧ cell.key = "org-admin-org-admin" := by
    decide +kernel
  obtain ⟨cell, hcell, hsigned⟩ := hsign
  have hread : ∃ cell ∈ published.cells, cell.subject = "item" ∧
      cell.actions.get? "read" = some true := by
    decide +kernel
  obtain ⟨other, hother, hitem, hgranted⟩ := hread
  obtain ⟨before, r, later, context, subject, -, -, hsplit, hvalid, hsubject, -⟩ :=
    hmade other hother "read" hgranted
  refine ⟨hreached, hempty, hcommands, hplain, ?_, ?_, before, r, later, hsplit, subject,
    hvalid.subject_means, hsubject.trans hitem⟩
  · exact (htexts hplain _ _).mpr ⟨cell, hcell, "sign", hsigned⟩
  · decide +kernel

/-- A context that is called by a level, whose admin reads it. -/
def levelCommands : List Command :=
  [.step (.register { kind := .context, name := .level .debug, roles := .ofTexts ["admin"] }),
    .step (.declare { context := .own "DEBUG", role := .text "admin", subject := .own "DEBUG",
                      actions := .mapping [(.text "read", .bool true)] }),
    .step .build]

/-- The cell of such a context grants an action and its key is not found under the action: a cell holds
the text of a level, and the keys of the index show the level itself. -/
theorem level_not_inverted :
    let published := (({} : Session).after levelCommands).engine.compiler.published
    (∃ cell ∈ published.cells, cell.actions.get? "read" = some true ∧
      Policy.actionKey cell.subject "read" = "DEBUG-read" ∧ cell.key = "DEBUG-admin-DEBUG-admin") ∧
    "DEBUG-admin-DEBUG-admin" ∉ published.keysFor "DEBUG-read" := by
  decide +kernel

end Session

end AccessMatrix
