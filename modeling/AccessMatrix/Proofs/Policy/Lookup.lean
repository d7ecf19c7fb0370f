import AccessMatrix.Proofs.Policy.PlainNames
import AccessMatrix.Proofs.Session.Reached

/-!
# Looking cells up

A cell is looked up by the joined key of its parts, and of the cells with one key the last is found.
What was declared is looked up by the parts themselves. The two agree on a slot unless the slot is
shadowed, that is, a cell of another slot has its key and stands last. Names without dashes shadow
nothing, but for a role on the subject that is called like none.
-/

namespace AccessMatrix.Policy

/-- The key of the cell in a slot. -/
def Slot.key (slot : Slot) : String :=
  accessKey slot.context (some slot.role) slot.subject slot.subjectRole

theorem Cell.key_slot (cell : Cell) : cell.slot.key = cell.key := rfl

/-- A role that is given as a text is in a key like the text. -/
theorem keyRole_roleOfValue (role : String) :
    keyRole (roleOfValue (.text role)) = keyRole (some role) := by
  by_cases h : role = "" <;> simp [roleOfValue, Value.isTruthy, Value.display, keyRole, h]

/-- A role that is given as a text or as nothing is in a key like the text or like no role. -/
theorem keyRole_roleOfValue_ofOption (role : Option String) :
    keyRole (roleOfValue (.ofOption role)) = keyRole role := by
  cases role with
  | none => rfl
  | some role => exact keyRole_roleOfValue role

namespace Snapshot

/-- A cell of another slot has the key of a slot, and no later cell has it. -/
def Shadowed (s : Snapshot) (slot : Slot) : Prop :=
  ∃ before other after, s.cells = before ++ other :: after ∧ other.key = slot.key ∧
    other.slot ≠ slot ∧ ∀ later ∈ after, later.key ≠ slot.key

variable {s : Snapshot} {slot : Slot}

/-- The cell found under a key is the last one that has it. -/
theorem cellAt_eq_some_iff {key : String} {cell : Cell} :
    s.cellAt key = some cell ↔ ∃ before after, s.cells = before ++ cell :: after ∧
      cell.key = key ∧ ∀ later ∈ after, later.key ≠ key := by
  rw [cellAt, getLast?_filter_eq_some_iff]
  simp only [decide_eq_true_eq, decide_eq_false_iff_not]

/-- No cell is found under a key exactly if none has it. -/
theorem cellAt_eq_none_iff {key : String} :
    s.cellAt key = none ↔ ∀ cell ∈ s.cells, cell.key ≠ key := by
  simp [cellAt]

/-- A slot is shadowed exactly if a cell of another slot is found under its key. -/
theorem shadowed_iff :
    s.Shadowed slot ↔ ∃ other, s.cellAt slot.key = some other ∧ other.slot ≠ slot := by
  simp only [cellAt_eq_some_iff]
  constructor
  · intro h
    obtain ⟨before, other, after, hcells, hkey, hne, hafter⟩ := h
    exact ⟨other, ⟨before, after, hcells, hkey, hafter⟩, hne⟩
  · intro h
    obtain ⟨other, ⟨before, after, hcells, hkey, hafter⟩, hne⟩ := h
    exact ⟨before, other, after, hcells, hkey, hne, hafter⟩

instance : Decidable (s.Shadowed slot) :=
  decidable_of_iff ((s.cellAt slot.key).any fun other => other.slot ≠ slot) <| by
    simp [shadowed_iff, Option.any_eq_true]

/-- Where no slot has two cells, what is found under the key of a slot is the cell in the slot, or
nothing if there is none, exactly if the slot is not shadowed. -/
theorem cellAt_exact_iff (hnodup : (s.cells.map Cell.slot).Nodup) :
    (∀ cell, s.cellAt slot.key = some cell ↔ cell ∈ s.cells ∧ cell.slot = slot) ↔
      ¬ s.Shadowed slot := by
  rw [shadowed_iff]
  constructor
  · intro hexact hshadowed
    obtain ⟨other, hfound, hne⟩ := hshadowed
    exact hne ((hexact other).mp hfound).2
  intro hclear cell
  cases hfound : s.cellAt slot.key with
  | none =>
    have hnone := cellAt_eq_none_iff.mp hfound
    refine iff_of_false nofun fun hcell => ?_
    obtain ⟨hmem, hslot⟩ := hcell
    exact hnone cell hmem (hslot ▸ cell.key_slot.symm)
  | some last =>
    have hlast : last.slot = slot := by
      by_contra hne
      exact hclear ⟨last, hfound, hne⟩
    have hmem : last ∈ s.cells := by
      obtain ⟨before, after, hcells, -, -⟩ := cellAt_eq_some_iff.mp hfound
      simp [hcells]
    rw [Option.some.injEq]
    constructor
    · intro hcell
      exact hcell ▸ ⟨hmem, hlast⟩
    · intro hcell
      obtain ⟨hother, hslot⟩ := hcell
      exact List.inj_on_of_nodup_map hnodup hmem hother (hlast.trans hslot.symm)

/-- Names that keys tell apart shadow no slot, if its role on the subject is not called like none. -/
theorem not_shadowed_of_tellsRoles {g later : Graph} (hwithin : g.Within later)
    (hlater : later.WellNamed) (htells : later.TellsRoles) (round : Round)
    (hempty : slot.subjectRole ≠ some "") (hnull : slot.subjectRole ≠ some noRole) :
    ¬ (compile g round).Shadowed slot := by
  intro h
  obtain ⟨before, other, after, hcells, hkey, hne, -⟩ := h
  have hmem : other ∈ (compile g round).cells := by simp [hcells]
  obtain ⟨hcontext, hrole, hsubject, hsubjectRole⟩ :=
    keyed_of_mem_cells hwithin hlater htells hmem
  obtain ⟨hroleEq, hslot⟩ :=
    (Cell.key_eq_accessKey_iff hcontext hrole hsubject hsubjectRole hnull).mp hkey
  have hgiven : slot.subjectRole.filter (· ≠ "") = slot.subjectRole := by
    cases hsubjectRole : slot.subjectRole with
    | none => rfl
    | some role =>
      have hnamed : role ≠ "" := fun heq => hempty (hsubjectRole.trans (congrArg some heq))
      simp [hnamed]
  rw [hgiven, ← Option.some.inj hroleEq] at hslot
  exact hne hslot

/-- A cell lists the declared actions of its slot, and every other action as not allowed. -/
theorem actions_eq_declared {g : Graph} {ds : List Declaration} {cell : Cell}
    (h : cell ∈ (compile g (.ofDeclarations ds)).cells) (action : String) :
    let s := compile g (.ofDeclarations ds)
    cell.actions.get? action = ((s.declared cell.slot).get? action).or
      (if action ∈ s.actions.map Name.text then some false else none) := by
  intro s
  rw [actions_of_mem_cells h]
  change (if action ∈ s.actions.map Name.text then
    some (((s.declared cell.slot).get? action).getD false) else none) = _
  cases hdeclared : (s.declared cell.slot).get? action with
  | none => rfl
  | some allowed =>
    have hknown : action ∈ s.actions.map Name.text := by
      cases hslot : s.defined.get? cell.slot with
      | none => simp [declared, hslot, Table.get?_nil] at hdeclared
      | some actions =>
        obtain ⟨d, hd, rfl⟩ := (Round.holds_of_get?_resolve hslot).declared
        rw [declared, hslot] at hdeclared
        exact Round.mem_actions_of_declared hd hdeclared
    rw [if_pos hknown]
    rfl

end Snapshot

open Session (Command Step)

/-- Looking a cell up agrees with what was declared unless the slot is shadowed. Whatever a session
did before and whatever the parts asked for are, looking up is answered with the cell that the matrix
has in that very slot, or with nothing if it has none, exactly if the slot is not shadowed; what was
declared there is looked up without fail; and every cell of the matrix lists the actions declared for
its slot, with every other declared action as not allowed. No slot is shadowed where roles can be told
in keys, if the role asked for is not one that stands for none. -/
theorem cell_lookup_unless_shadowed {s : Session} (hs : s.world.Reached)
    (context role subject : String) (subjectRole : Option String) :
    let published := s.engine.compiler.published
    let asked : Slot := ⟨context, role, subject, subjectRole⟩
    (∃ found, (Step.cell (.text context) (.text role) (.text subject) (.ofOption subjectRole)).run s =
        (.ok (.cell found), s) ∧
      ((∀ cell, found = some cell ↔ cell ∈ published.cells ∧ cell.slot = asked) ↔
        ¬ published.Shadowed asked)) ∧
    (Step.declared (.text context) (.text role) (.text subject) (.ofOption subjectRole)).run s =
      (.ok (.actions (published.declared asked)), s) ∧
    (∀ cell ∈ published.cells, ∀ action,
      cell.actions.get? action = ((published.declared cell.slot).get? action).or
        (if action ∈ published.actions.map Name.text then some false else none)) ∧
    (s.engine.graph.TellsRoles → subjectRole ≠ some "" → subjectRole ≠ some noRole →
      ¬ published.Shadowed asked) := by
  intro published asked
  obtain ⟨g, ds, hg, hwithin, hcompiled⟩ := hs.sound.published
  have hpublished : published = .compile g (.ofDeclarations ds) := hcompiled
  have hkey : accessKey context (roleOfValue (.text role)) subject
      (roleOfValue (.ofOption subjectRole)) = asked.key := by
    rw [Slot.key, accessKey, accessKey, keyRole_roleOfValue, keyRole_roleOfValue_ofOption]
  refine ⟨⟨published.cellAt asked.key, ?_, Snapshot.cellAt_exact_iff ?_⟩, ?_, ?_, ?_⟩
  · rw [← hkey]
    cases subjectRole <;> rfl
  · rw [hpublished, Snapshot.slots_compile]
    exact Snapshot.nodup_slots hg
  · cases subjectRole <;> rfl
  · intro cell hcell action
    rw [hpublished] at hcell ⊢
    exact Snapshot.actions_eq_declared hcell action
  · intro htells hempty hnull
    rw [hpublished]
    exact Snapshot.not_shadowed_of_tellsRoles hwithin hs.sound.wellNamed htells _ hempty hnull

/-- A context and a role whose names, joined, are those of another context and its role. -/
def joinedCommands : List Command :=
  [.step (.register { kind := .context, name := .text "team", roles := .ofTexts ["lead-dev"] }),
    .step (.register { kind := .context, name := .text "team-lead", roles := .ofTexts ["dev"] }),
    .step (.register { kind := .product, name := .text "item",
                       parents := .each [.own "team", .own "team-lead"] }),
    .step (.declare { context := .own "team", role := .text "lead-dev", subject := .own "item",
                      actions := .mapping [(.text "read", .bool true)] }),
    .step (.declare { context := .own "team-lead", role := .text "dev", subject := .own "item",
                      actions := .mapping [(.text "write", .bool true)] }),
    .step .build]

/-- The cell that stands last is found as it was declared. -/
theorem cell_lookup_last :
    let s := ({} : Session).after joinedCommands
    let asked : Slot := ⟨"team-lead", "dev", "item", none⟩
    ∃ cell, (Step.cell (.text "team-lead") (.text "dev") (.text "item") .null).run s =
        (.ok (.cell (some cell)), s) ∧ cell.slot = asked ∧
      cell.actions.get? "write" = some true ∧ cell.actions.get? "read" = some false := by
  intro s asked
  obtain ⟨⟨found, hrun, hexact⟩, -, hactions, -⟩ :=
    cell_lookup_unless_shadowed (Session.World.reached_after joinedCommands) "team-lead" "dev" "item"
      none
  have hslot : asked ∈ s.engine.compiler.published.cells.map Cell.slot := by decide +kernel
  obtain ⟨cell, hcell, hslot⟩ := List.mem_map.mp hslot
  have hfound : found = some cell := (hexact.mpr (by decide +kernel) cell).mpr ⟨hcell, hslot⟩
  refine ⟨cell, hfound ▸ hrun, hslot, ?_, ?_⟩
  · rw [hactions cell hcell, hslot]
    decide +kernel
  · rw [hactions cell hcell, hslot]
    decide +kernel

/-- The cell of another context and another role is found in the place of one that is in the matrix
and was declared. -/
theorem lookup_finds_other_cell :
    let s := ({} : Session).after joinedCommands
    let published := s.engine.compiler.published
    let asked : Slot := ⟨"team", "lead-dev", "item", none⟩
    ⟨"team", "lead-dev", "item", none, [("read", true), ("write", false)]⟩ ∈ published.cells ∧
      published.declared asked = [("read", true)] ∧
      ∃ found, (Step.cell (.text "team") (.text "lead-dev") (.text "item") .null).run s =
          (.ok (.cell found), s) ∧
        found = some ⟨"team-lead", "dev", "item", none, [("read", false), ("write", true)]⟩ := by
  intro s published asked
  exact ⟨by decide +kernel, by decide +kernel, _, rfl, by decide +kernel⟩

end AccessMatrix.Policy
