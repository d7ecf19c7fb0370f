import AccessMatrix.Proofs.Evaluation.ActorPolicies
import AccessMatrix.Proofs.Evaluation.Exactness
import AccessMatrix.Proofs.Graph.Relations

/-!
# Entries for gated entities

The policies of an actor list an action on a gated entity only where a key of the query is among those
that the action is granted to there. Where entities and roles have plain names without dashes and no
role is called like no role, this says that a membership which counts has a cell over the entity, for no
role on it, which allows the action. Where no action has a dot in its name either, every such entry is
told from all the others.
-/

namespace AccessMatrix

/-- In every world that sessions lead to, what entities gate is registered. -/
theorem Session.World.Reached.controllers_registered {w : World} (h : w.Reached) :
    ∀ e ∈ w.graph.entities, ∀ name ∈ e.controllers, name ∈ w.graph.names := by
  refine h.keeps_graph
    (motive := fun g => ∀ e ∈ g.entities, ∀ name ∈ e.controllers, name ∈ g.names)
    (fun _ he => absurd he List.not_mem_nil) (fun hg hregister => ?_) fun hg name parents => ?_
  · obtain ⟨d, ancestors, -, -, rfl, rfl⟩ := Graph.register_cases hregister
    rw [Graph.names_link]
    refine Graph.forall_mem_link.mpr ⟨fun e he name hname => ?_, fun _ hname => ?_⟩
    · rcases Graph.mem_controllers_told.mp hname with hold | ⟨-, rfl⟩
      · exact List.mem_append_left _ (hg e he name hold)
      · exact List.mem_append_right _ List.mem_cons_self
    · exact absurd hname List.not_mem_nil
  · rw [Graph.names_assignParents]
    refine List.forall_mem_map.mpr fun e he => ?_
    split
    · exact hg e he
    · exact hg e he

namespace Evaluation

open Policy (Snapshot Undashed accessKey actionKey controllerKey noRole)

/-- An action is granted on a gated entity: a membership that counts has a role, and the cell of that
role over the entity, for no role on it, allows the action. -/
def GatedCell (s : Snapshot) (r : Resolution) (controller action : String) : Prop :=
  ∃ m ∈ r.held, ∃ cell ∈ s.cells, m.roleName = some cell.role ∧
    cell.slot = ⟨m.contextName, cell.role, controller, none⟩ ∧
    cell.actions.get? action = some true

instance (s : Snapshot) (r : Resolution) (controller action : String) :
    Decidable (GatedCell s r controller action) :=
  inferInstanceAs (Decidable (∃ m ∈ r.held, ∃ cell ∈ s.cells, m.roleName = some cell.role ∧
    cell.slot = ⟨m.contextName, cell.role, controller, none⟩ ∧
    cell.actions.get? action = some true))

/-- An entry for an action ends with a dot and the text of the action, also where the action is shown as
a level. -/
theorem exists_controllerKey_text (controller : String) {action : Name}
    (h : action.StyleKeepsText) :
    ∃ before, controllerKey controller action.display = controllerKey before action.text := by
  cases action with
  | plain text => exact ⟨controller, rfl⟩
  | level level =>
    refine ⟨controller ++ ".LogLevel", String.toList_inj.mp ?_⟩
    simp [controllerKey, Name.display, Name.toValue, Name.text, Value.display]
  | styled s => exact ⟨controller, congrArg (controllerKey controller) h⟩

/-- Entries for two actions without dots in their names are told apart by the actions. -/
theorem text_eq_of_controllerKey_eq {controller controller' : String} {action other : Name}
    (haction : '.' ∉ action.text.toList) (hother : '.' ∉ other.text.toList)
    (hstyle : action.StyleKeepsText) (hstyle' : other.StyleKeepsText)
    (h : controllerKey controller action.display = controllerKey controller' other.display) :
    action.text = other.text := by
  obtain ⟨before, hbefore⟩ := exists_controllerKey_text controller hstyle
  obtain ⟨before', hbefore'⟩ := exists_controllerKey_text controller' hstyle'
  rw [hbefore, hbefore'] at h
  exact (Policy.controllerKey_inj haction hother h).2

section

variable {s : Session} {input : Input}

/-- What an entity gates has a name without dashes where all entities have. -/
theorem undashed_of_mem_controllersOf (hs : s.world.Reached) (hplain : s.engine.graph.PlainlyNamed)
    {name controller : String} (h : controller ∈ controllersOf s.engine.graph name) :
    Undashed controller := by
  rw [controllersOf] at h
  cases hfind : s.engine.graph.find? name with
  | none => simp [hfind] at h
  | some gate =>
    rw [hfind] at h
    obtain ⟨e, he, rfl⟩ := Graph.mem_names.mp
      (hs.controllers_registered gate (List.mem_of_find?_eq_some hfind) controller h)
    exact hplain.undashed e he

/-- No published cell is for an empty role. -/
theorem role_ne_empty_of_mem_cells (hs : s.world.Reached) {cell : Policy.Cell}
    (h : cell ∈ s.engine.compiler.published.cells) : cell.role ≠ "" := by
  obtain ⟨context, hcontext, -, -, -, hrole, -⟩ := parts_of_published hs h
  exact (hs.sound.wellNamed.entity context hcontext).role_ne_empty cell.role hrole

/-- On plain names, an action on a gated entity is met by the keys of a query exactly if a cell grants
it there. -/
theorem meets_gated_iff (hs : s.world.Reached) (hplain : s.engine.graph.PlainlyNamed)
    (hnull : ∀ e ∈ s.engine.graph.entities, noRole ∉ e.roles)
    (hundotted : ∀ action ∈ s.engine.compiler.published.actions, '.' ∉ action.text.toList)
    (hstyles : ∀ action ∈ s.engine.compiler.published.actions, action.StyleKeepsText)
    {controller : String} (hcontroller : controller ∈ controllersOf s.engine.graph input.subject.name)
    {action : Name} (haction : action ∈ s.engine.compiler.published.actions) :
    (∃ key ∈ s.engine.compiler.published.allowanceFor
        (s.engine.graph.labelOf controller).display action.display,
      key ∈ (resolve s.engine.graph input).controllerKeys) ↔
      GatedCell s.engine.compiler.published (resolve s.engine.graph input) controller action.text := by
  have hnone : (none : Option String) ≠ some noRole := nofun
  rw [Snapshot.allowanceFor, meets_gated_iff_grants hs, hplain.labelOf, Name.display_plain]
  constructor
  · rintro ⟨target, htarget, m, hm, cell, hcell, other, hother, hallowed, hshown, hkey⟩
    rw [hplain.labelOf, Name.display_plain] at hkey
    obtain ⟨hrole, -, hslot⟩ := (meets_cell_iff hs hplain hnull hnone hcell m).mp hkey
    have hsubject : cell.subject = target := congrArg Policy.Slot.subject hslot
    -- the key of the action shows the entity of the cell, and it is asked for on the gated one
    rw [hplain.labelOf, Name.display_plain, hsubject] at hshown
    obtain ⟨rfl, hdisplay⟩ := Policy.actionKey_inj_of_undashed
      (undashed_of_mem_controllersOf hs hplain htarget)
      (undashed_of_mem_controllersOf hs hplain hcontroller) hshown
    have htext : other.text = action.text := text_eq_of_controllerKey_eq (hundotted other hother)
      (hundotted action haction) (hstyles other hother) (hstyles action haction)
      (congrArg (controllerKey target) hdisplay)
    exact ⟨m, hm, cell, hcell, hrole, hslot, htext ▸ hallowed⟩
  · rintro ⟨m, hm, cell, hcell, hrole, hslot, hallowed⟩
    have hsubject : cell.subject = controller := congrArg Policy.Slot.subject hslot
    refine ⟨controller, hcontroller, m, hm, cell, hcell, action, haction, hallowed, ?_, ?_⟩
    · rw [hplain.labelOf, hsubject]
      rfl
    · rw [hplain.labelOf, Name.display_plain]
      exact (meets_cell_iff hs hplain hnull hnone hcell m).mpr
        ⟨hrole, role_ne_empty_of_mem_cells hs hcell, hslot⟩

/-- On plain names, what is listed for gated entities is what cells grant there. -/
theorem listedAsGated_iff (hs : s.world.Reached) (hplain : s.engine.graph.PlainlyNamed)
    (hnull : ∀ e ∈ s.engine.graph.entities, noRole ∉ e.roles)
    (hundotted : ∀ action ∈ s.engine.compiler.published.actions, '.' ∉ action.text.toList)
    (hstyles : ∀ action ∈ s.engine.compiler.published.actions, action.StyleKeepsText)
    (shown : String) :
    ListedAsGated s.engine.graph s.engine.compiler.published (resolve s.engine.graph input) shown ↔
      ∃ controller ∈ controllersOf s.engine.graph input.subject.name,
        ∃ action ∈ s.engine.compiler.published.actions,
          GatedCell s.engine.compiler.published (resolve s.engine.graph input) controller
              action.text ∧
            controllerKey controller action.display = shown := by
  refine exists_congr fun controller => and_congr_right fun hcontroller =>
    exists_congr fun action => and_congr_right fun haction => ?_
  rw [meets_gated_iff hs hplain hnull hundotted hstyles hcontroller haction, hplain.labelOf,
    Name.display_plain]

end

/-- Entries for gated entities are exact and sparse. Whatever a session did before, where entities and
roles have plain names without dashes, no role is called like no role, and no declared action has a
dot in its name or is of a class that shows it otherwise (a log level apart), the policies of an actor have an entry for every declared action and one for every
action that is granted on a gated entity, under the name of the entity, a dot and the action, and no
others. An action on a gated entity is listed as allowed if it is granted there, and is not listed at
all if it is not. -/
theorem controller_entries_exact {s : Session} (hs : s.world.Reached)
    (hplain : s.engine.graph.PlainlyNamed)
    (hnull : ∀ e ∈ s.engine.graph.entities, noRole ∉ e.roles)
    (hundotted : ∀ action ∈ s.engine.compiler.published.actions, '.' ∉ action.text.toList)
    (hstyles : ∀ action ∈ s.engine.compiler.published.actions, action.StyleKeepsText)
    {memberships subject : Value} {r : Resolution}
    (hquery : (query s.engine memberships subject).value = some r) :
    let published := s.engine.compiler.published
    let gated := controllersOf s.engine.graph r.subject.name
    let policies := (getActorPolicies s.engine memberships subject).value
    (∀ shown, shown ∈ policies.keys ↔ (∃ action ∈ published.actions, action.text = shown) ∨
      ∃ controller ∈ gated, ∃ action ∈ published.actions,
        GatedCell published r controller action.text ∧
          controllerKey controller action.display = shown) ∧
    (∀ controller ∈ gated, ∀ action ∈ published.actions,
      policies.get? (controllerKey controller action.display) =
        if GatedCell published r controller action.text then some true else none) ∧
    ∀ shown, policies.get? shown = some false → ∃ action ∈ published.actions, action.text = shown := by
  obtain ⟨input, -, rfl⟩ := query_eq_some hquery
  intro published gated policies
  have hpolicies : policies = actorPolicies s.engine.graph published (resolve s.engine.graph input) :=
    getActorPolicies_of_query hquery
  have hnodup : (published.actions.map Name.text).Nodup := nodup_actions_published hs
  have hlisted (shown : String) :
      ListedAsGated s.engine.graph published (resolve s.engine.graph input) shown ↔
        ∃ controller ∈ gated, ∃ action ∈ published.actions,
          GatedCell published (resolve s.engine.graph input) controller action.text ∧
            controllerKey controller action.display = shown :=
    listedAsGated_iff hs hplain hnull hundotted hstyles shown
  refine ⟨fun shown => ?_, fun controller hcontroller action haction => ?_, fun shown hrefused => ?_⟩
  · rw [hpolicies, mem_keys_actorPolicies hnodup, hlisted]
  · have hgranted : ListedAsGated s.engine.graph published (resolve s.engine.graph input)
        (controllerKey controller action.display) ↔
          GatedCell published (resolve s.engine.graph input) controller action.text := by
      rw [hlisted]
      constructor
      · rintro ⟨other, -, named, hnamed, hcell, hshown⟩
        have htext : named.text = action.text :=
          text_eq_of_controllerKey_eq (hundotted named hnamed) (hundotted action haction)
            (hstyles named hnamed) (hstyles action haction) hshown
        obtain rfl : named = action := List.inj_on_of_nodup_map hnodup hnamed haction htext
        obtain rfl : other = controller := by simpa [controllerKey] using hshown
        exact hcell
      · intro hcell
        exact ⟨controller, hcontroller, action, haction, hcell, rfl⟩
    rw [hpolicies, get?_actorPolicies_eq hnodup]
    refine if_congr hgranted rfl (Option.eq_none_iff_forall_ne_some.mpr fun allowed hfound => ?_)
    obtain ⟨other, hother, htext, -⟩ := exists_of_get?_decisions hfound
    exact hundotted other hother (by simp [htext, controllerKey])
  · rw [hpolicies, get?_actorPolicies_eq hnodup] at hrefused
    split at hrefused
    · contradiction
    · obtain ⟨action, haction, htext, -⟩ := exists_of_get?_decisions hrefused
      exact ⟨action, haction, htext⟩

open Session (Command)

/-- A context with one role, which may read the items that the context gates. -/
def itemCommands (context role item : Name) : List Command :=
  [.step (.register { kind := .context, name := context.toValue, roles := .list [role.toValue] }),
    .step (.register { kind := .product, name := item.toValue,
                       parents := .each [.own context.text] }),
    .step (.declare { context := .own context.text, role := role.toValue, subject := .own item.text,
                      actions := .mapping [(.text "read", .bool true), (.text "write", .bool false)] }),
    .step .build]

/-- Reading items is listed for an organization, and writing them is not. -/
theorem controller_entries_item :
    let s := ({} : Session).after (itemCommands (.plain "org") (.plain "admin") (.plain "item"))
    let m : Membership := ⟨"org", "o1", some "admin", []⟩
    let subject := (⟨"org", "o1", []⟩ : Subject).toValue
    let policies := (getActorPolicies s.engine (.list [m.toValue .names]) subject).value
    policies.get? "item.read" = some true ∧ policies.get? "item.write" = none := by
  intro s m subject policies
  have hquery : (query s.engine (.list [m.toValue .names]) subject).value =
      some (resolve s.engine.graph ⟨[m], ⟨"org", "o1", []⟩⟩) := by
    rfl
  have hplain : s.engine.graph.PlainlyNamed :=
    ⟨by decide +kernel, by decide +kernel, by decide +kernel, by decide +kernel⟩
  obtain ⟨-, hentries, -⟩ := controller_entries_exact (Session.World.reached_after _) hplain
    (by decide +kernel) (by decide +kernel) (by decide +kernel) hquery
  have hread := hentries "item" (by decide +kernel) (.plain "read") (by decide +kernel)
  have hwrite := hentries "item" (by decide +kernel) (.plain "write") (by decide +kernel)
  exact ⟨hread.trans (by decide +kernel), hwrite.trans (by decide +kernel)⟩

/-- An entry for a gated entity that is missing although no name holds a dash, no role is called like no
role and no action has a dot in its name: reading items is granted and not listed. -/
def MissingEntry (context role item : Name) : Prop :=
  let s := ({} : Session).after (itemCommands context role item)
  let m : Membership := ⟨context.text, "o1", some role.text, []⟩
  let subject : Subject := ⟨context.text, "o1", []⟩
  let r := resolve s.engine.graph ⟨[m], subject⟩
  (∀ e ∈ s.engine.graph.entities, Undashed e.name ∧
      ∀ role ∈ e.roles, Undashed role ∧ role ≠ noRole) ∧
    m.roleName ≠ some noRole ∧
    (∀ action ∈ s.engine.compiler.published.actions, '.' ∉ action.text.toList) ∧
    (query s.engine (.list [m.toValue .names]) subject.toValue).value = some r ∧
    item.text ∈ controllersOf s.engine.graph context.text ∧
    GatedCell s.engine.compiler.published r item.text "read" ∧
    controllerKey item.text "read" ∉
      (getActorPolicies s.engine (.list [m.toValue .names]) subject.toValue).value.keys

instance (context role item : Name) : Decidable (MissingEntry context role item) :=
  inferInstanceAs (Decidable (_ ∧ _ ∧ _ ∧ _ ∧ _ ∧ _ ∧ _))

/-- A level among the names parts entries from cells: a cell holds the text of the level, and keys and
entries show the level itself. So the entry is missing, be it the role, the context or the gated entity
that was given as a level. -/
theorem level_entry_missing :
    MissingEntry (.plain "org") (.level .info) (.plain "item") ∧
      MissingEntry (.level .info) (.plain "admin") (.plain "item") ∧
      MissingEntry (.plain "org") (.plain "admin") (.level .info) := by
  decide +kernel

end Evaluation

end AccessMatrix
