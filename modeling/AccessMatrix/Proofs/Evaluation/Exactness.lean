import AccessMatrix.Proofs.Evaluation.Granted
import AccessMatrix.Proofs.Policy.PlainNames

/-!
# Exactness of decisions

Snapshots and queries meet on joined keys. Where names are plain and hold no dash, and no role is
called like no role, this is as if they met on the cells themselves: an action is allowed exactly if
a membership that counts has a cell of its own which allows it. The strings of the query are
arbitrary.
-/

namespace AccessMatrix.Evaluation

open Policy (Snapshot Cell KeyedRole Undashed accessKey keyRole noRole)

/-- The role of the direct membership on the subject; an empty one counts as none. -/
def Resolution.directRole (r : Resolution) : Option String := r.givenRole.filter (· ≠ "")

/-- The exact-cell rule: a membership that counts has a role, and the cell of that role over the
subject, for the direct role on the subject, allows the action. -/
def ExactCell (s : Snapshot) (r : Resolution) (action : String) : Prop :=
  ∃ m ∈ r.held, ∃ cell ∈ s.cells, m.roleName = some cell.role ∧ cell.role ≠ "" ∧
    cell.slot = ⟨m.contextName, cell.role, r.subject.name, r.directRole⟩ ∧
    cell.actions.get? action = some true

instance (s : Snapshot) (r : Resolution) (action : String) : Decidable (ExactCell s r action) :=
  inferInstanceAs (Decidable (∃ m ∈ r.held, ∃ cell ∈ s.cells, m.roleName = some cell.role ∧
    cell.role ≠ "" ∧ cell.slot = ⟨m.contextName, cell.role, r.subject.name, r.directRole⟩ ∧
    cell.actions.get? action = some true))

/-- Where no membership that counts has the name of no role, the direct one has not either. -/
theorem givenRole_ne_noRole {r : Resolution} (h : ∀ m ∈ r.held, m.roleName ≠ some noRole) :
    r.givenRole ≠ some noRole := by
  intro hgiven
  obtain ⟨m, hm, hrole⟩ := Option.bind_eq_some_iff.mp hgiven
  exact h m (List.mem_append_left _ (by simp [hm])) hrole

/-- On plain names, a membership meets a published cell over an entity exactly if the cell has its
parts. -/
theorem meets_cell_iff {s : Session} (hs : s.world.Reached) (hplain : s.engine.graph.PlainlyNamed)
    (hnull : ∀ e ∈ s.engine.graph.entities, noRole ∉ e.roles) {given : Option String}
    (hgiven : given ≠ some noRole) {cell : Cell}
    (hcell : cell ∈ s.engine.compiler.published.cells) (m : Membership) {target : String} :
    (s.engine.graph.labelled cell.slot).key =
        accessKey m.contextName m.roleName target given ↔
      m.roleName = some cell.role ∧ cell.role ≠ "" ∧
        cell.slot = ⟨m.contextName, cell.role, target, given.filter (· ≠ "")⟩ := by
  obtain ⟨g, ds, hwithin, hpublished⟩ := hs.published
  rw [hpublished] at hcell
  obtain ⟨hcontext, hrole, hsubject, hsubjectRole⟩ :=
    Snapshot.keyed_of_mem_cells hwithin hs.sound.wellNamed (hplain.tellsRoles hnull) hcell
  rw [hplain.key, Policy.Cell.key_eq_accessKey_iff hcontext hrole hsubject hsubjectRole hgiven,
    and_iff_right hrole.named]

/-- Decisions are exact. Where entities, roles and actions have plain names, those of entities and
roles hold no dash, and no role that is registered or held is called like no role, an action is
allowed on a subject exactly if the exact-cell rule holds: whatever the session did before, whatever
memberships are given, and whatever the strings of the query are. -/
theorem isAllowed_iff_exactCell {s : Session} (hs : s.world.Reached)
    (hplain : s.engine.graph.PlainlyNamed)
    (hactions : ∀ action ∈ s.engine.compiler.published.actions, action.IsPlain)
    (hnull : ∀ e ∈ s.engine.graph.entities, noRole ∉ e.roles) {memberships subject : Value}
    {r : Resolution} (hquery : (query s.engine memberships subject).value = some r)
    (hheld : ∀ m ∈ r.held, m.roleName ≠ some noRole) (action : String) :
    (isAllowed s.engine memberships (.text action) subject).value = true ↔
      ExactCell s.engine.compiler.published r action := by
  have hgiven := givenRole_ne_noRole hheld
  rw [isAllowed_iff_grants hs hquery]
  constructor
  · intro hgrants
    obtain ⟨m, hm, cell, hcell, other, hother, hallowed, hshown, hkey⟩ := hgrants
    obtain ⟨hroleName, hnamed, hslot⟩ := (meets_cell_iff hs hplain hnull hgiven hcell m).mp hkey
    have hsubject : cell.subject = r.subject.name := congrArg Policy.Slot.subject hslot
    have haction : other.text = action :=
      (hplain.actionKey_eq_iff (hactions other hother) _ _).mp (hsubject ▸ hshown)
    exact ⟨m, hm, cell, hcell, hroleName, hnamed, hslot, haction ▸ hallowed⟩
  · intro hexact
    obtain ⟨m, hm, cell, hcell, hroleName, hnamed, hslot, hallowed⟩ := hexact
    have hsubject : cell.subject = r.subject.name := congrArg Policy.Slot.subject hslot
    have hkey := (meets_cell_iff hs hplain hnull hgiven hcell m).mpr ⟨hroleName, hnamed, hslot⟩
    obtain ⟨other, hother, haction⟩ : ∃ other ∈ s.engine.compiler.published.actions,
        other.text = action := by
      obtain ⟨g, ds, -, hpublished⟩ := hs.published
      rw [hpublished] at hcell ⊢
      exact List.mem_map.mp ((Snapshot.get?_of_mem_cells hcell action).mp hallowed).1
    have hshown := (hplain.actionKey_eq_iff (hactions other hother) cell.subject action).mpr haction
    exact ⟨m, hm, cell, hcell, other, hother, haction ▸ hallowed, hsubject ▸ hshown, hkey⟩

open Session (Command)

/-- Organizations above courses: an admin of the organization reads the course. -/
def schoolCommands : List Command :=
  [.step (.register { kind := .context, name := .text "org", roles := .ofTexts ["admin"] }),
    .step (.register { kind := .context, name := .text "course", roles := .ofTexts ["staff"],
                       parents := .each [.own "org"] }),
    .step (.declare { context := .own "org", role := .text "admin", subject := .own "course",
                      actions := .mapping [(.text "read", .bool true)] }),
    .step .build]

/-- What an admin of the organization above a course resolves to there. -/
def schoolResolution : Resolution where
  subject := ⟨"course", "c1", [("org", some "o1")]⟩
  chain := [⟨"org", "o1", some "admin", []⟩]
  accessKeys := ["org-admin-course-null"]

/-- The rule at work: the admin reads the course, because of the cell for no role on it. -/
theorem isAllowed_school :
    let s := ({} : Session).after schoolCommands
    let memberships := Value.list (schoolResolution.chain.map (Membership.toValue .names))
    let subject := schoolResolution.subject.toValue
    (query s.engine memberships subject).value = some schoolResolution ∧
      (isAllowed s.engine memberships (.text "read") subject).value = true ∧
      (isAllowed s.engine memberships (.text "course-read") subject).value ≠ true := by
  intro s memberships subject
  have hquery : (query s.engine memberships subject).value = some schoolResolution := by
    decide +kernel
  have hplain : s.engine.graph.PlainlyNamed :=
    ⟨by decide +kernel, by decide +kernel, by decide +kernel, by decide +kernel⟩
  have hexact := isAllowed_iff_exactCell (Session.World.reached_after schoolCommands) hplain
    (by decide +kernel) (by decide +kernel) hquery (by decide +kernel)
  refine ⟨hquery, (hexact "read").mpr ?_, fun hallowed => ?_⟩
  · decide +kernel
  · exact absurd ((hexact "course-read").mp hallowed) (by decide +kernel)

/-- One context with one role that is allowed one action on it, under names of any kind. -/
def namedCommands (context role action : Name) : List Command :=
  [.step (.register { kind := .context, name := context.toValue, roles := .list [role.toValue] }),
    .step (.declare { context := .own context.text, role := role.toValue,
                      subject := .own context.text,
                      actions := .mapping [(action.toValue, .bool true)] }),
    .step .build]

/-- A decision that is not exact although no name holds a dash and no role is called like no role: the
holder of the role is refused the action, and the exact-cell rule holds. -/
def Inexact (context role action : Name) : Prop :=
  let s := ({} : Session).after (namedCommands context role action)
  let m : Membership := ⟨context.text, "o1", some role.text, []⟩
  let subject : Subject := ⟨context.text, "o1", []⟩
  let r := resolve s.engine.graph ⟨[m], subject⟩
  (∀ e ∈ s.engine.graph.entities, Undashed e.name ∧
      ∀ role ∈ e.roles, Undashed role ∧ role ≠ noRole) ∧
    m.roleName ≠ some noRole ∧
    (query s.engine (.list [m.toValue .names]) subject.toValue).value = some r ∧
    ExactCell s.engine.compiler.published r action.text ∧
    (isAllowed s.engine (.list [m.toValue .names]) (.text action.text)
      subject.toValue).value = false

instance (context role action : Name) : Decidable (Inexact context role action) :=
  inferInstanceAs (Decidable (_ ∧ _ ∧ _ ∧ _ ∧ _))

/-- A level among the names parts keys from cells: a cell holds the text of the level and its key
shows the level itself. So the action is refused although the exact-cell rule holds, be it the
action, the role or the context that was given as a level. -/
theorem level_not_exact :
    Inexact (.plain "org") (.plain "admin") (.level .info) ∧
      Inexact (.plain "org") (.level .info) (.plain "read") ∧
      Inexact (.level .info) (.plain "admin") (.plain "read") := by
  decide +kernel

end AccessMatrix.Evaluation
