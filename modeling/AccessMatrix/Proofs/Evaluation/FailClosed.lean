import AccessMatrix.Proofs.Evaluation.Granted
import AccessMatrix.Proofs.Policy.PlainNames

/-!
# Unknown names

A query about a subject that is not registered, or about an action that is not declared, ought to be
refused. Keys are joined and not escaped, so the keys of a query can be those of a cell of another
subject, or for another action; exactly then an unknown name is answered as if it were known. Plain
names without dashes leave no room for that.
-/

namespace AccessMatrix.Evaluation

open Policy (Snapshot Cell actionKey)

/-- A membership that counts meets a cell of another subject than the one asked about, or its grant
of another action than the one asked for, because the keys are equal. -/
def Forged (g : Graph) (s : Snapshot) (r : Resolution) (action : String) : Prop :=
  ∃ m ∈ r.held, ∃ cell ∈ s.cells, ∃ other ∈ s.actions,
    cell.actions.get? other.text = some true ∧
      (cell.subject, other.text) ≠ (r.subject.name, action) ∧
      actionKey (g.labelOf cell.subject).display other.display = actionKey r.subject.name action ∧
      (g.labelled cell.slot).key = r.keyOf m

instance (g : Graph) (s : Snapshot) (r : Resolution) (action : String) :
    Decidable (Forged g s r action) :=
  inferInstanceAs (Decidable (∃ m ∈ r.held, ∃ cell ∈ s.cells, ∃ other ∈ s.actions,
    cell.actions.get? other.text = some true ∧
      (cell.subject, other.text) ≠ (r.subject.name, action) ∧
      actionKey (g.labelOf cell.subject).display other.display = actionKey r.subject.name action ∧
      (g.labelled cell.slot).key = r.keyOf m))

/-- The cells of what is published are over registered entities. -/
theorem subject_mem_of_mem_cells {s : Session} (hs : s.world.Reached) {cell : Cell}
    (h : cell ∈ s.engine.compiler.published.cells) : cell.subject ∈ s.engine.graph.names := by
  obtain ⟨-, -, subject, hsubject, -, -, hname, -⟩ := parts_of_published hs h
  exact hname ▸ List.mem_map_of_mem hsubject

/-- Where a grant cannot be for the subject and the action asked about, meeting one is forgery. -/
theorem forged_iff_grants {g : Graph} {s : Snapshot} {r : Resolution} {action : String}
    (h : ∀ cell ∈ s.cells, ∀ other ∈ s.actions,
      (cell.subject, other.text) ≠ (r.subject.name, action)) :
    Forged g s r action ↔
      ∃ m ∈ r.held, Snapshot.Grants g s (actionKey r.subject.name action) (r.keyOf m) := by
  constructor
  · intro hforged
    obtain ⟨m, hm, cell, hcell, other, hother, hallowed, -, hshown, hkey⟩ := hforged
    exact ⟨m, hm, cell, hcell, other, hother, hallowed, hshown, hkey⟩
  · intro hgrants
    obtain ⟨m, hm, cell, hcell, other, hother, hallowed, hshown, hkey⟩ := hgrants
    exact ⟨m, hm, cell, hcell, other, hother, hallowed, h cell hcell other hother, hshown, hkey⟩

/-- Plain names without dashes cannot be forged. -/
theorem not_forged_of_plain {s : Session} (hs : s.world.Reached)
    (hplain : s.engine.graph.PlainlyNamed)
    (hactions : ∀ action ∈ s.engine.compiler.published.actions, action.IsPlain) (r : Resolution)
    (action : String) : ¬ Forged s.engine.graph s.engine.compiler.published r action := by
  intro hforged
  obtain ⟨m, -, cell, hcell, other, hother, -, hne, hshown, hkey⟩ := hforged
  obtain ⟨g, ds, hwithin, hpublished⟩ := hs.published
  rw [hpublished] at hcell
  obtain ⟨hcontext, hrole, hsubject, hsubjectRole⟩ :=
    Snapshot.undashed_of_mem_cells hwithin hplain hcell
  rw [hplain.key] at hkey
  obtain ⟨-, -, hsubjectEq, -⟩ := Policy.accessKey_inj hcontext
    (Policy.undashed_keyRole fun role h => Option.some.inj h ▸ hrole) hsubject
    (Policy.undashed_keyRole hsubjectRole) hkey
  have haction : other.text = action :=
    (hplain.actionKey_eq_iff (hactions other hother) _ _).mp (hsubjectEq ▸ hshown)
  exact hne (Prod.ext hsubjectEq haction)

/-- The policies of an actor on a name that is not registered are those on the name itself. -/
theorem actorPolicies_of_unregistered {s : Session} (hs : s.world.Reached) {r : Resolution}
    (h : r.subject.name ∉ s.engine.graph.names) :
    actorPolicies s.engine.graph s.engine.compiler.published r =
      s.engine.compiler.published.actions.map fun action =>
        (action.text, (s.engine.compiler.published.allowanceFor r.subject.name action.display).any
          r.accessKeys.contains) := by
  have hgated : controllersOf s.engine.graph r.subject.name = [] := by
    rw [controllersOf, Graph.find?_eq_none_iff.mpr h]
    rfl
  have hsorted : sortedNames [] = [] := by simp [sortedNames]
  simp only [actorPolicies, hgated, hsorted, List.flatMap_nil, List.foldl_nil]
  refine Table.ofPairs_of_nodup ?_
  rw [List.map_map]
  exact nodup_actions_published hs

/-- Evaluation fails closed but for forgery. On a subject that is not registered, or for an action
that is not declared, a query is refused unless it is forged; on a subject that is not registered,
every entry of an actor's policies is refused unless it is forged; and where names are plain and
hold no dash, nothing can be forged. -/
theorem fails_closed_unless_forged {s : Session} (hs : s.world.Reached) {memberships subject : Value}
    {r : Resolution} (hquery : (query s.engine memberships subject).value = some r) :
    let g := s.engine.graph
    let published := s.engine.compiler.published
    (∀ action : String,
      r.subject.name ∉ g.names ∨ action ∉ published.actions.map Name.text →
        ((isAllowed s.engine memberships (.text action) subject).value = false ↔
          ¬ Forged g published r action)) ∧
    (r.subject.name ∉ g.names →
      ((∀ entry ∈ (getActorPolicies s.engine memberships subject).value, entry.2 = false) ↔
        ∀ action ∈ published.actions, ¬ Forged g published r action.display)) ∧
    (g.PlainlyNamed → (∀ action ∈ published.actions, action.IsPlain) →
      ∀ action, ¬ Forged g published r action) := by
  intro g published
  have hother (action : String)
      (h : r.subject.name ∉ g.names ∨ action ∉ published.actions.map Name.text) :
      ∀ cell ∈ published.cells, ∀ other ∈ published.actions,
        (cell.subject, other.text) ≠ (r.subject.name, action) := by
    intro cell hcell other hother heq
    obtain ⟨hsubject, rfl⟩ := Prod.mk.inj heq
    rcases h with hunregistered | hundeclared
    · exact hunregistered (hsubject ▸ subject_mem_of_mem_cells hs hcell)
    · exact hundeclared (List.mem_map_of_mem hother)
  refine ⟨fun action h => ?_, fun h => ?_, fun hplain hactions =>
    not_forged_of_plain hs hplain hactions r⟩
  · rw [forged_iff_grants (hother action h), ← Bool.not_eq_true]
    exact not_congr (isAllowed_iff_grants hs hquery action)
  · have hpolicies : (getActorPolicies s.engine memberships subject).value =
        actorPolicies g published r := by
      simp only [getActorPolicies, hquery, Option.map_some, Option.getD_some, g, published]
    rw [hpolicies, actorPolicies_of_unregistered hs h, List.forall_mem_map]
    refine forall₂_congr fun action haction => ?_
    rw [forged_iff_grants (hother action.display (.inl h)), ← Bool.not_eq_true,
      ← meets_iff_grants hs hquery]
    simp [Snapshot.allowanceFor]

open Session (Command)

/-- A context, a role and an action with names that leave room for forgery. -/
def dashedCommands : List Command :=
  [.step (.register { kind := .context, name := .text "course", roles := .ofTexts ["x-admin"] }),
    .step (.declare { context := .own "course", role := .text "x-admin", subject := .own "course",
                      actions := .mapping [(.text "read", .bool true),
                        (.text "x-read", .bool true)] }),
    .step .build]

/-- What the holder of a role resolves to on a subject that is not registered. -/
def strangerResolution : Resolution where
  subject := ⟨"course-x", "k", []⟩
  direct? := some ⟨"course-x", "k", some "admin", []⟩
  accessKeys := ["course-x-admin-course-x-admin"]

/-- On a subject that is not registered, an action that is not forged is refused. -/
theorem fails_closed_stranger :
    let s := ({} : Session).after dashedCommands
    let memberships := Value.list (strangerResolution.held.map (Membership.toValue .names))
    let subject := strangerResolution.subject.toValue
    (query s.engine memberships subject).value = some strangerResolution ∧
      "course-x" ∉ s.engine.graph.names ∧
      (isAllowed s.engine memberships (.text "write") subject).value = false := by
  intro s memberships subject
  have hquery : (query s.engine memberships subject).value = some strangerResolution := by
    decide +kernel
  have hunregistered : "course-x" ∉ s.engine.graph.names := by decide +kernel
  obtain ⟨hrefused, -, -⟩ :=
    fails_closed_unless_forged (Session.World.reached_after dashedCommands) hquery
  exact ⟨hquery, hunregistered, (hrefused "write" (.inl hunregistered)).mpr (by decide +kernel)⟩

/-- An action on a subject that is not registered is allowed, because both keys of the query are
those of a cell of the course. -/
theorem unregistered_allowed :
    let s := ({} : Session).after dashedCommands
    let memberships := Value.list (strangerResolution.held.map (Membership.toValue .names))
    let subject := strangerResolution.subject.toValue
    (query s.engine memberships subject).value = some strangerResolution ∧
      strangerResolution.subject.name ∉ s.engine.graph.names ∧
      (isAllowed s.engine memberships (.text "read") subject).value = true ∧
      ("read", true) ∈ (getActorPolicies s.engine memberships subject).value := by
  decide +kernel

end AccessMatrix.Evaluation
