import AccessMatrix.Evaluation.Decision
import AccessMatrix.Proofs.Policy.Index
import AccessMatrix.Proofs.Session.Reached

/-!
# What a decision rests on

An action is allowed exactly if some membership that counts meets a cell that allows the action: the
two action keys are equal, and so are the two keys of the cell. This holds for every query that a
session can be asked, whatever the names in it are.
-/

namespace AccessMatrix.Evaluation

open Policy (Snapshot accessKey actionKey)

/-- The role that the direct membership has on the subject as it was given. -/
def Resolution.givenRole (r : Resolution) : Option String := r.direct?.bind Membership.roleName

/-- The key that a membership which counts is looked up under. -/
def Resolution.keyOf (r : Resolution) (m : Membership) : String :=
  accessKey m.contextName m.roleName r.subject.name r.givenRole

/-- The keys of a query are those of the memberships that count. -/
theorem mem_accessKeys {g : Graph} {input : Input} {key : String} :
    key ∈ (resolve g input).accessKeys ↔
      ∃ m ∈ (resolve g input).held, (resolve g input).keyOf m = key :=
  List.mem_eraseDups.trans List.mem_map

/-- The keys of a query for gated entities are those of what counts over each of them. -/
theorem mem_controllerKeys {g : Graph} {input : Input} {key : String} :
    key ∈ (resolve g input).controllerKeys ↔
      ∃ controller ∈ controllersOf g input.subject.name, ∃ m ∈ (resolve g input).held,
        accessKey m.contextName m.roleName (g.labelOf controller).display none = key := by
  change key ∈ ((controllersOf g input.subject.name).flatMap fun controller =>
    (resolve g input).held.map fun m => _).eraseDups ↔ _
  rw [List.mem_eraseDups]
  simp only [List.mem_flatMap, List.mem_map]

/-- What a query resolves to was read without failure. -/
theorem query_eq_some {e : Engine} {memberships subject : Value} {r : Resolution}
    (h : (query e memberships subject).value = some r) :
    ∃ input, readInput e memberships subject = .ok input ∧ resolve e.graph input = r := by
  rw [query] at h
  split at h
  · rename_i input hinput
    exact ⟨input, hinput, Option.some.inj h⟩
  · contradiction

/-- A decision allows what some key of the resolution is among the granting keys of. -/
theorem decide_allowed_iff (s : Snapshot) (r : Resolution) (action : Name) :
    (decide s r action).allowed = true ↔
      ∃ key ∈ s.keysFor (actionKey r.subject.name action.display), key ∈ r.accessKeys := by
  simp [decide, List.isEmpty_eq_false_iff, List.filter_eq_nil_iff]

/-- The parts of a published cell name registered entities and their roles. -/
theorem parts_of_published {s : Session} (hs : s.world.Reached) {cell : Policy.Cell}
    (h : cell ∈ s.engine.compiler.published.cells) :
    ∃ context ∈ s.engine.graph.entities, ∃ subject ∈ s.engine.graph.entities,
      context.name = cell.context ∧ cell.role ∈ context.roles ∧ subject.name = cell.subject ∧
        ∀ subjectRole, cell.subjectRole = some subjectRole → subjectRole ∈ subject.roles := by
  obtain ⟨g, ds, hwithin, hpublished⟩ := hs.published
  rw [hpublished] at h
  exact Snapshot.parts_of_mem_cells hwithin h

/-- What a published snapshot holds in its index is told from its cells. -/
theorem mem_keysFor_published {s : Session} (hs : s.world.Reached) {shown key : String} :
    key ∈ s.engine.compiler.published.keysFor shown ↔
      Snapshot.Grants s.engine.graph s.engine.compiler.published shown key := by
  obtain ⟨g, ds, hwithin, hpublished⟩ := hs.published
  rw [hpublished]
  exact Snapshot.mem_keysFor_iff hwithin hs.sound.wellNamed

/-- A key of a query is among those of an action exactly if a membership that counts meets a cell
which grants the action. -/
theorem meets_iff_grants {s : Session} (hs : s.world.Reached) {memberships subject : Value}
    {r : Resolution} (hquery : (query s.engine memberships subject).value = some r)
    (shown : String) :
    (∃ key ∈ s.engine.compiler.published.keysFor shown, key ∈ r.accessKeys) ↔
      ∃ m ∈ r.held,
        Snapshot.Grants s.engine.graph s.engine.compiler.published shown (r.keyOf m) := by
  obtain ⟨input, -, rfl⟩ := query_eq_some hquery
  simp only [mem_keysFor_published hs, mem_accessKeys]
  constructor
  · intro hmeets
    obtain ⟨_, hgrants, m, hm, rfl⟩ := hmeets
    exact ⟨m, hm, hgrants⟩
  · intro hmeets
    obtain ⟨m, hm, hgrants⟩ := hmeets
    exact ⟨_, hgrants, m, hm, rfl⟩

/-- A key of a query for gated entities is among those of an action exactly if a membership that counts
meets, for no role on some gated entity, a cell which grants the action. -/
theorem meets_gated_iff_grants {s : Session} (hs : s.world.Reached) {input : Input}
    (shown : String) :
    (∃ key ∈ s.engine.compiler.published.keysFor shown,
        key ∈ (resolve s.engine.graph input).controllerKeys) ↔
      ∃ target ∈ controllersOf s.engine.graph input.subject.name,
        ∃ m ∈ (resolve s.engine.graph input).held,
          Snapshot.Grants s.engine.graph s.engine.compiler.published shown
            (accessKey m.contextName m.roleName (s.engine.graph.labelOf target).display none) := by
  simp only [mem_keysFor_published hs, mem_controllerKeys]
  constructor
  · intro hmeets
    obtain ⟨_, hgrants, target, htarget, m, hm, rfl⟩ := hmeets
    exact ⟨target, htarget, m, hm, hgrants⟩
  · intro hmeets
    obtain ⟨target, htarget, m, hm, hgrants⟩ := hmeets
    exact ⟨_, hgrants, target, htarget, m, hm, rfl⟩

/-- What is published lists no action twice. -/
theorem nodup_actions_published {s : Session} (hs : s.world.Reached) :
    (s.engine.compiler.published.actions.map Name.text).Nodup := by
  obtain ⟨g, ds, -, hpublished⟩ := hs.published
  rw [hpublished]
  exact Policy.Round.nodup_actions_ofDeclarations ds

/-- A query that can be read is answered by the decision for what it resolves to, and an action that is
no text is refused. -/
theorem isAllowed_of_query {e : Engine} {memberships subject : Value} {r : Resolution}
    (hquery : (query e memberships subject).value = some r) (action : Value) :
    (isAllowed e memberships action subject).value =
      (Name.ofValue? action).any fun name => (decide e.compiler.published r name).allowed := by
  cases haction : Name.ofValue? action <;> simp [isAllowed, explain, hquery, haction]

/-- A query that can be read is answered by the decision for what it resolves to. -/
theorem isAllowed_toValue {e : Engine} {memberships subject : Value} {r : Resolution}
    (hquery : (query e memberships subject).value = some r) (action : Name) :
    (isAllowed e memberships action.toValue subject).value =
      (decide e.compiler.published r action).allowed := by
  rw [isAllowed_of_query hquery, Name.ofValue?_toValue, Option.any_some]

/-- The policies of an actor are those for what the query resolves to. -/
theorem getActorPolicies_of_query {e : Engine} {memberships subject : Value} {r : Resolution}
    (hquery : (query e memberships subject).value = some r) :
    (getActorPolicies e memberships subject).value = actorPolicies e.graph e.compiler.published r := by
  simp only [getActorPolicies, hquery, Option.map_some, Option.getD_some]

/-- A query that can be read is allowed exactly if a membership that counts meets a granting cell. -/
theorem isAllowed_iff_grants {s : Session} (hs : s.world.Reached) {memberships subject : Value}
    {r : Resolution} (hquery : (query s.engine memberships subject).value = some r)
    (action : String) :
    (isAllowed s.engine memberships (.text action) subject).value = true ↔
      ∃ m ∈ r.held, Snapshot.Grants s.engine.graph s.engine.compiler.published
        (actionKey r.subject.name action) (r.keyOf m) := by
  have hdecision := isAllowed_toValue hquery (.plain action)
  rw [Name.toValue] at hdecision
  rw [hdecision, decide_allowed_iff, Name.display_plain]
  exact meets_iff_grants hs hquery _

end AccessMatrix.Evaluation
