import AccessMatrix.Proofs.Evaluation.Granted

/-!
# Agreement of the policies of an actor with single decisions

The policies of an actor list every declared action with its decision, and after that what is allowed
on the entities that the subject gates, each under the name of the entity, a dot, and the action. Both
are entries of one table and nothing keeps them apart, so an action that is itself called so is listed
as allowed when the gated one is. In no other way do the policies differ from the single decisions.
-/

namespace AccessMatrix.Evaluation

open Policy (Snapshot controllerKey)

/-- Something is listed under a text because an action is allowed on an entity that the subject
gates. -/
def ListedAsGated (g : Graph) (s : Snapshot) (r : Resolution) (shown : String) : Prop :=
  ∃ controller ∈ controllersOf g r.subject.name, ∃ action ∈ s.actions,
    (∃ key ∈ s.allowanceFor (g.labelOf controller).display action.display,
        key ∈ r.controllerKeys) ∧
      controllerKey (g.labelOf controller).display action.display = shown

instance (g : Graph) (s : Snapshot) (r : Resolution) (shown : String) :
    Decidable (ListedAsGated g s r shown) :=
  inferInstanceAs (Decidable (∃ controller ∈ controllersOf g r.subject.name, ∃ action ∈ s.actions,
    (∃ key ∈ s.allowanceFor (g.labelOf controller).display action.display,
        key ∈ r.controllerKeys) ∧
      controllerKey (g.labelOf controller).display action.display = shown))

/-- What is listed for gated entities has a dot in its name. -/
theorem ListedAsGated.dotted {g : Graph} {s : Snapshot} {r : Resolution} {shown : String}
    (h : ListedAsGated g s r shown) : '.' ∈ shown.toList := by
  obtain ⟨controller, -, action, -, -, rfl⟩ := h
  simp [controllerKey]

/-- A decision allows what some key of the resolution is found for. -/
theorem any_allowanceFor (s : Snapshot) (r : Resolution) (action : Name) :
    (s.allowanceFor r.subject.name action.display).any r.accessKeys.contains =
      (decide s r action).allowed := by
  rw [Bool.eq_iff_iff, decide_allowed_iff]
  simp [Snapshot.allowanceFor]

/-- Before anything is listed for gated entities, every action is listed with its decision. -/
theorem ofPairs_decisions {s : Snapshot} (h : (s.actions.map Name.text).Nodup) (r : Resolution) :
    Table.ofPairs (s.actions.map fun action =>
        (action.text, (s.allowanceFor r.subject.name action.display).any r.accessKeys.contains)) =
      s.actions.map fun action => (action.text, (decide s r action).allowed) := by
  simp only [any_allowanceFor]
  refine Table.ofPairs_of_nodup ?_
  rw [List.map_map]
  exact h

/-- What is listed for gated entities is listed as allowed; under any other text there is what is listed
for the action that is called so. -/
theorem get?_actorPolicies_eq {g : Graph} {s : Snapshot} (h : (s.actions.map Name.text).Nodup)
    (r : Resolution) (shown : String) :
    (actorPolicies g s r).get? shown =
      if ListedAsGated g s r shown then some true
      else Table.get? (s.actions.map fun action => (action.text, (decide s r action).allowed))
        shown := by
  rw [actorPolicies, ofPairs_decisions h, Table.get?_foldl_put _ _ true ?_]
  · refine if_congr ?_ rfl rfl
    simp [sortedNames, ListedAsGated, Snapshot.allowanceFor, and_assoc]
  · simp only [List.forall_mem_flatMap, List.forall_mem_map, implies_true]

/-- Under the text of an action its decision is found. -/
theorem get?_decisions {s : Snapshot} (h : (s.actions.map Name.text).Nodup) (r : Resolution)
    {action : Name} (haction : action ∈ s.actions) :
    Table.get? (s.actions.map fun action => (action.text, (decide s r action).allowed))
      action.text = some (decide s r action).allowed := by
  refine Table.get?_of_mem ?_ (List.mem_map_of_mem haction)
  rw [List.map_map]
  exact h

/-- What is found among the decisions is that of an action which is called so. -/
theorem exists_of_get?_decisions {s : Snapshot} {r : Resolution} {shown : String} {allowed : Bool}
    (h : Table.get? (s.actions.map fun action => (action.text, (decide s r action).allowed)) shown =
      some allowed) :
    ∃ action ∈ s.actions, action.text = shown ∧ (decide s r action).allowed = allowed := by
  obtain ⟨action, haction, hentry⟩ := List.mem_map.mp (Table.mem_of_get? h)
  obtain ⟨htext, hallowed⟩ := Prod.mk.inj hentry
  exact ⟨action, haction, htext, hallowed⟩

/-- An action is listed as allowed if something is listed under its text for gated entities, and else
with its decision. -/
theorem get?_actorPolicies {g : Graph} {s : Snapshot} (h : (s.actions.map Name.text).Nodup)
    (r : Resolution) {action : Name} (haction : action ∈ s.actions) :
    (actorPolicies g s r).get? action.text =
      if ListedAsGated g s r action.text then some true
      else some (decide s r action).allowed := by
  rw [get?_actorPolicies_eq h, get?_decisions h r haction]

/-- The policies of an actor have an entry under the text of every action and under what is listed for
gated entities, and no other. -/
theorem mem_keys_actorPolicies {g : Graph} {s : Snapshot} (h : (s.actions.map Name.text).Nodup)
    (r : Resolution) (shown : String) :
    shown ∈ (actorPolicies g s r).keys ↔
      (∃ action ∈ s.actions, action.text = shown) ∨ ListedAsGated g s r shown := by
  rw [← Table.has_iff_mem_keys, Table.has_iff_get?_ne_none, get?_actorPolicies_eq h]
  split
  · rename_i hgated
    exact iff_of_true (by simp) (.inr hgated)
  · rename_i hgated
    rw [or_iff_left hgated, ← Table.has_iff_get?_ne_none, Table.has_iff_mem_keys]
    simp [Table.keys]

/-- The policies of an actor list as allowed the actions that are allowed and what is listed for gated
entities. -/
theorem get?_actorPolicies_eq_true_iff {g : Graph} {s : Snapshot}
    (h : (s.actions.map Name.text).Nodup) (r : Resolution) (shown : String) :
    (actorPolicies g s r).get? shown = some true ↔
      (∃ action ∈ s.actions, action.text = shown ∧ (decide s r action).allowed = true) ∨
        ListedAsGated g s r shown := by
  rw [get?_actorPolicies_eq h]
  split
  · rename_i hgated
    exact iff_of_true rfl (.inr hgated)
  · rename_i hgated
    rw [or_iff_left hgated]
    constructor
    · exact exists_of_get?_decisions
    · rintro ⟨action, haction, rfl, hallowed⟩
      rw [get?_decisions h r haction, hallowed]

/-- Every declared action is in the policies of an actor, and is listed there as allowed exactly if a
query for it is allowed or if it is called like an action that is allowed on a gated entity. So the
two agree except where an action that is refused is called like that, and they always agree where no
declared action has a dot in its name. -/
theorem actor_policies_agree_unless_gated {s : Session} (hs : s.world.Reached)
    {memberships subject : Value} {r : Resolution}
    (hquery : (query s.engine memberships subject).value = some r) :
    let published := s.engine.compiler.published
    let policies := (getActorPolicies s.engine memberships subject).value
    let allowed := fun action : Name => (isAllowed s.engine memberships action.toValue subject).value
    (∀ action ∈ published.actions, ∃ listed, policies.get? action.text = some listed ∧
      (listed = true ↔
        allowed action = true ∨ ListedAsGated s.engine.graph published r action.text)) ∧
    ((∀ action ∈ published.actions, '.' ∉ action.text.toList) →
      ∀ action ∈ published.actions, policies.get? action.text = some (allowed action)) := by
  intro published policies allowed
  have hlisted {action : Name} (haction : action ∈ published.actions) :
      policies.get? action.text =
        if ListedAsGated s.engine.graph published r action.text then some true
        else some (allowed action) := by
    have hpolicies : policies = actorPolicies s.engine.graph published r := by
      simp only [policies, getActorPolicies, hquery, Option.map_some, Option.getD_some, published]
    rw [hpolicies, get?_actorPolicies (nodup_actions_published hs) r haction,
      ← isAllowed_toValue hquery]
  refine ⟨fun action haction => ?_, fun hundotted action haction => ?_⟩
  · rw [hlisted haction]
    split
    · rename_i hgated
      exact ⟨true, rfl, iff_of_true rfl (.inr hgated)⟩
    · rename_i hgated
      exact ⟨allowed action, rfl, (or_iff_left hgated).symm⟩
  · rw [hlisted haction, if_neg fun hgated => hundotted action haction hgated.dotted]

open Session (Command)

/-- An organization that gates items, with actions on itself and on them. -/
def gatingCommands (onItems onItself : List (Value × Value)) : List Command :=
  [.step (.register { kind := .context, name := .text "org", roles := .ofTexts ["admin"] }),
    .step (.register { kind := .product, name := .text "item", parents := .each [.own "org"] }),
    .step (.declare { context := .own "org", role := .text "admin", subject := .own "item",
                      actions := .mapping onItems }),
    .step (.declare { context := .own "org", role := .text "admin", subject := .own "org",
                      actions := .mapping onItself }),
    .step .build]

/-- What an admin of the organization resolves to on it. -/
def gatingResolution : Resolution where
  subject := ⟨"org", "o1", []⟩
  direct? := some ⟨"org", "o1", some "admin", []⟩
  accessKeys := ["org-admin-org-admin"]
  controllerKeys := ["org-admin-item-null"]

/-- Without dots in the names of actions, the admin finds the actions on the organization listed as
single queries decide them. -/
theorem actor_policies_agree_gating :
    let s := ({} : Session).after
      (gatingCommands [(.text "read", .bool true)] [(.text "invite", .bool true)])
    let memberships := Value.list (gatingResolution.held.map (Membership.toValue .names))
    let subject := gatingResolution.subject.toValue
    let policies := (getActorPolicies s.engine memberships subject).value
    (query s.engine memberships subject).value = some gatingResolution ∧
      policies.get? "invite" = some true ∧ policies.get? "read" = some false := by
  intro s memberships subject policies
  have hquery : (query s.engine memberships subject).value = some gatingResolution := by
    decide +kernel
  obtain ⟨-, hagree⟩ :=
    actor_policies_agree_unless_gated (Session.World.reached_after _) hquery
  have hundotted : ∀ action ∈ s.engine.compiler.published.actions, '.' ∉ action.text.toList := by
    decide +kernel
  have hinvite := hagree hundotted (.plain "invite") (by decide +kernel)
  have hread := hagree hundotted (.plain "read") (by decide +kernel)
  exact ⟨hquery, hinvite.trans (by decide +kernel), hread.trans (by decide +kernel)⟩

/-- An action on the organization that is called like reading an item is refused, and is listed as
allowed because reading items is. -/
theorem dotted_action_disagrees :
    let s := ({} : Session).after
      (gatingCommands [(.text "read", .bool true)] [(.text "item.read", .bool false)])
    let memberships := Value.list (gatingResolution.held.map (Membership.toValue .names))
    let subject := gatingResolution.subject.toValue
    (query s.engine memberships subject).value = some gatingResolution ∧
      .plain "item.read" ∈ s.engine.compiler.published.actions ∧
      (isAllowed s.engine memberships (.text "item.read") subject).value = false ∧
      (getActorPolicies s.engine memberships subject).value.get? "item.read" = some true := by
  decide +kernel

end AccessMatrix.Evaluation
