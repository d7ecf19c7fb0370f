import AccessMatrix.Proofs.Evaluation.ActorPolicies
import AccessMatrix.Proofs.Evaluation.Resolved

/-!
# Memberships without a role

A membership without a role ought to grant nothing. In a key no role is written as a text, and a role
may have that text as its name; then whoever has no role meets the cells of that role. Names with
dashes leave room for the same, as keys are not escaped. In no other way does a membership without a
role meet a cell, so it grants nothing where no role is called like no role and names hold no dash,
neither as texts nor in the form that a text of a class of its own is shown in.
-/

namespace AccessMatrix

/-- The names of a graph that have a form of their own are shown without dashes, and the roles among
them not like no role. -/
structure Graph.StylesApart (g : Graph) : Prop where
  label : ∀ e ∈ g.entities, ∀ s, e.label = .styled s → Policy.Undashed s.shown
  roleLabel : ∀ e ∈ g.entities, ∀ s, .styled s ∈ e.roleLabels → Policy.KeyedRole s.shown

/-- A name whose text holds no dash is shown without one. -/
theorem Name.undashed_display {n : Name} (h : Policy.Undashed n.text)
    (hstyled : ∀ s, n = .styled s → Policy.Undashed s.shown) : Policy.Undashed n.display := by
  cases n with
  | plain s => exact h
  | level l => cases l <;> decide
  | styled s => exact hstyled s rfl

/-- A role that can be told in keys by its text can be told by its label. -/
theorem Policy.KeyedRole.display {label : Name} (h : KeyedRole label.text)
    (hstyled : ∀ s, label = .styled s → KeyedRole s.shown) : KeyedRole label.display := by
  cases label with
  | plain s => exact h
  | level l => cases l <;> exact ⟨by decide, by decide, by decide⟩
  | styled s => exact hstyled s rfl

namespace Graph.StylesApart

variable {g : Graph}

/-- The label of a name without a dash is shown without one. -/
theorem undashed_labelOf (h : g.StylesApart) {name : String} (hname : Policy.Undashed name) :
    Policy.Undashed (g.labelOf name).display := by
  refine Name.undashed_display (by rw [Graph.text_labelOf]; exact hname) fun s hs => ?_
  rw [Graph.labelOf] at hs
  cases hfind : g.find? name with
  | none => simp [hfind] at hs
  | some e => exact h.label e (List.mem_of_find?_eq_some hfind) s (by simpa [hfind] using hs)

/-- The label of a role that can be told in keys can be told. -/
theorem keyed_roleLabelOf (h : g.StylesApart) {name role : String} (hrole : Policy.KeyedRole role) :
    Policy.KeyedRole (g.roleLabelOf name role).display := by
  refine Policy.KeyedRole.display (by rw [Graph.text_roleLabelOf]; exact hrole) fun s hs => ?_
  rw [Graph.roleLabelOf, Graph.roleLabelsOf] at hs
  cases hfind : g.find? name with
  | none => simp [hfind] at hs
  | some e =>
    simp only [hfind, Option.map_some, Option.getD_some] at hs
    cases hlabel : e.roleLabels.find? fun label => label.text = role with
    | none => simp [hlabel] at hs
    | some label =>
      rw [hlabel, Option.getD_some] at hs
      exact h.roleLabel e (List.mem_of_find?_eq_some hfind) s
        (hs ▸ List.mem_of_find?_eq_some hlabel)

end Graph.StylesApart

/-- Plain names have no form of their own. -/
theorem Graph.PlainlyNamed.stylesApart {g : Graph} (h : g.PlainlyNamed) : g.StylesApart where
  label e he s hs := by
    have hplain := h.label e he
    rw [hs] at hplain
    exact nomatch hplain
  roleLabel e he s hs := nomatch h.roleLabel e he _ hs

namespace Evaluation

open Policy (Snapshot Actions KeyedRole Undashed accessKey actionKey keyRole noRole)

/-- Some membership meets, without any role on either side, a cell that grants what is shown under a
key over an entity shown under a name. -/
def GrantedWithoutRole (g : Graph) (s : Snapshot) (held : List Membership) (target shown : String) :
    Prop :=
  ∃ m ∈ held, Snapshot.Grants g s shown (accessKey m.contextName none target none)

/-- A key shows no role for a missing or empty one. -/
theorem keyRole_of_roleless {role : Option String} (h : role.filter (· ≠ "") = none) :
    keyRole role = noRole := by
  cases role with
  | none => rfl
  | some name =>
    have hempty : name = "" := by simpa using h
    rw [keyRole, if_pos hempty]

/-- The key of a membership without a role shows none. -/
theorem accessKey_of_roleless {role subjectRole : Option String}
    (h : role.filter (· ≠ "") = none) (h' : subjectRole.filter (· ≠ "") = none)
    (context subject : String) :
    accessKey context role subject subjectRole = accessKey context none subject none := by
  rw [accessKey, accessKey, keyRole_of_roleless h, keyRole_of_roleless h', keyRole]

/-- Where roles can be told, no cell is met without a role. -/
theorem not_grants_without_role {s : Session} (hs : s.world.Reached)
    (htells : s.engine.graph.TellsRoles) (hstyles : s.engine.graph.StylesApart)
    (shown context target : String) :
    ¬ Snapshot.Grants s.engine.graph s.engine.compiler.published shown
      (accessKey context none target none) := by
  intro hgrants
  obtain ⟨cell, hcell, action, -, -, -, hkey⟩ := hgrants
  obtain ⟨owner, howner, subject, hsubject, hcontext, hrole, hsubjectName, hroles⟩ :=
    parts_of_published hs hcell
  have hkeyed {e : Entity} (he : e ∈ s.engine.graph.entities) {role : String}
      (hmem : role ∈ e.roles) : KeyedRole role :=
    Policy.keyedRole_of_mem hs.sound.wellNamed htells he hmem
  have hlabel {e : Entity} (he : e ∈ s.engine.graph.entities) :
      Undashed (s.engine.graph.labelOf e.name).display :=
    hstyles.undashed_labelOf (htells.undashed e he)
  have hroleLabel {name role : String} (hrole : KeyedRole role) :
      KeyedRole (s.engine.graph.roleLabelOf name role).display :=
    hstyles.keyed_roleLabelOf hrole
  have hcellRole : KeyedRole (s.engine.graph.roleLabelOf cell.context cell.role).display :=
    hroleLabel (hkeyed howner hrole)
  have hsubjectRole (label : String)
      (h : (cell.subjectRole.map (s.engine.graph.roleLabelOf cell.subject)).map Name.display =
        some label) : Undashed label := by
    obtain ⟨_, hlabelled, rfl⟩ := Option.map_eq_some_iff.mp h
    obtain ⟨role, hmem, rfl⟩ := Option.map_eq_some_iff.mp hlabelled
    exact (hroleLabel (hkeyed hsubject (hroles role hmem))).undashed
  have hcontextLabel : Undashed (s.engine.graph.labelOf cell.context).display :=
    hcontext ▸ hlabel howner
  have hsubjectLabel : Undashed (s.engine.graph.labelOf cell.subject).display :=
    hsubjectName ▸ hlabel hsubject
  -- of the two equal keys the one of the cell splits at its dashes, and its role is that of a label
  obtain ⟨-, hkeyRole, -, -⟩ := Policy.accessKey_inj hcontextLabel
    (Policy.undashed_keyRole fun _ h => Option.some.inj h ▸ hcellRole.undashed) hsubjectLabel
    (Policy.undashed_keyRole hsubjectRole) hkey
  have hnone := hcellRole.keyRole_eq_iff.mp (hkeyRole.symm.trans (hcellRole.keyRole_eq_iff.mpr rfl))
  contradiction

section

variable {s : Session} {memberships subject : Value} {input : Input}

/-- What counts was given. -/
theorem roleless_held {g : Graph} (h : ∀ m ∈ input.memberships, m.roleName.filter (· ≠ "") = none) :
    ∀ m ∈ (resolve g input).held, m.roleName.filter (· ≠ "") = none :=
  fun m hm => h m (Membership.mem_of_lastOn (lastOn_of_mem_held hm)).1

/-- Where no membership has a role, what counts is looked up under keys without roles. -/
theorem keyOf_of_roleless {r : Resolution}
    (h : ∀ m ∈ r.held, m.roleName.filter (· ≠ "") = none) {m : Membership} (hm : m ∈ r.held) :
    r.keyOf m = accessKey m.contextName none r.subject.name none := by
  have hgiven : r.givenRole.filter (· ≠ "") = none := by
    cases hdirect : r.direct? with
    | none => rw [Resolution.givenRole, hdirect]; rfl
    | some direct =>
      rw [Resolution.givenRole, hdirect]
      exact h direct (List.mem_append_left _ (by simp [hdirect]))
  exact accessKey_of_roleless (h m hm) hgiven _ _

/-- Without roles, an action is allowed exactly if a cell is met without a role. -/
theorem decide_of_roleless (hs : s.world.Reached) {r : Resolution}
    (hquery : (query s.engine memberships subject).value = some r)
    (h : ∀ m ∈ r.held, m.roleName.filter (· ≠ "") = none) (action : Name) :
    (decide s.engine.compiler.published r action).allowed = true ↔
      GrantedWithoutRole s.engine.graph s.engine.compiler.published r.held r.subject.name
        (actionKey r.subject.name action.display) := by
  rw [decide_allowed_iff, meets_iff_grants hs hquery]
  refine exists_congr fun m => and_congr_right fun hm => ?_
  rw [keyOf_of_roleless h hm]

/-- Of what is stored one after the other as allowed, at least the last shows. -/
theorem exists_true_foldl_put (own gated : Actions) (h : ∀ entry ∈ gated, entry.2 = true) :
    (∃ entry ∈ gated.foldl (fun policies entry => policies.put entry.1 entry.2) own,
        entry.2 = true) ↔
      (∃ entry ∈ own, entry.2 = true) ∨ gated ≠ [] := by
  induction gated using List.reverseRecOn with
  | nil => simp
  | append_singleton gated entry _ =>
    have hentry : entry.2 = true := h entry (by simp)
    rw [List.foldl_concat]
    refine iff_of_true ⟨(entry.1, true), Table.mem_of_get? ?_, rfl⟩ (.inr (by simp))
    rw [Table.get?_put, if_pos rfl, hentry]

/-- Something is listed as allowed in the policies of an actor exactly if an action is allowed on the
subject, or on an entity that the subject gates. -/
theorem exists_true_actorPolicies {g : Graph} {s : Snapshot} (h : (s.actions.map Name.text).Nodup)
    (r : Resolution) :
    (∃ entry ∈ actorPolicies g s r, entry.2 = true) ↔
      (∃ action ∈ s.actions, (decide s r action).allowed = true) ∨
      ∃ controller ∈ controllersOf g r.subject.name, ∃ action ∈ s.actions,
        ∃ key ∈ s.allowanceFor (g.labelOf controller).display action.display,
          key ∈ r.controllerKeys := by
  rw [actorPolicies, ofPairs_decisions h, exists_true_foldl_put]
  · refine or_congr ?_ ?_
    · simp
    · simp [List.flatMap_eq_nil_iff, sortedNames]
  · simp only [List.forall_mem_flatMap, List.forall_mem_map, implies_true]

/-- Without roles, an action on a gated entity is listed exactly if a cell is met without a role over
some gated entity. -/
theorem meets_gated_of_roleless (hs : s.world.Reached)
    (h : ∀ m ∈ (resolve s.engine.graph input).held, m.roleName.filter (· ≠ "") = none)
    (shown : String) :
    (∃ key ∈ s.engine.compiler.published.keysFor shown,
        key ∈ (resolve s.engine.graph input).controllerKeys) ↔
      ∃ target ∈ controllersOf s.engine.graph input.subject.name,
        GrantedWithoutRole s.engine.graph s.engine.compiler.published
          (resolve s.engine.graph input).held (s.engine.graph.labelOf target).display shown := by
  rw [meets_gated_iff_grants hs]
  refine exists_congr fun target => and_congr_right fun _ => exists_congr fun m =>
    and_congr_right fun hm => ?_
  rw [accessKey_of_roleless (h m hm) (Option.filter_none _)]

/-- Without roles, something is listed exactly if a cell is met without a role, for a declared action on
the subject or on an entity that the subject gates. -/
theorem listed_of_roleless (hs : s.world.Reached)
    (hquery : (query s.engine memberships subject).value = some (resolve s.engine.graph input))
    (h : ∀ m ∈ (resolve s.engine.graph input).held, m.roleName.filter (· ≠ "") = none) :
    let g := s.engine.graph
    let published := s.engine.compiler.published
    let own := input.subject.name
    let granted := GrantedWithoutRole g published (resolve g input).held
    (∃ entry ∈ (getActorPolicies s.engine memberships subject).value, entry.2 = true) ↔
      (∃ action ∈ published.actions, granted own (actionKey own action.display)) ∨
      ∃ controller ∈ controllersOf g own, ∃ target ∈ controllersOf g own,
        ∃ action ∈ published.actions, granted (g.labelOf target).display
          (actionKey (g.labelOf controller).display action.display) := by
  intro g published own granted
  rw [getActorPolicies_of_query hquery, exists_true_actorPolicies (nodup_actions_published hs)]
  refine or_congr ?_ (exists_congr fun controller => and_congr_right fun _ => ?_)
  · exact exists_congr fun action =>
      and_congr_right fun _ => decide_of_roleless hs hquery h action
  · simp only [Snapshot.allowanceFor, published, g, meets_gated_of_roleless hs h]
    constructor
    · intro hmet
      obtain ⟨action, haction, target, htarget, hgranted⟩ := hmet
      exact ⟨target, htarget, action, haction, hgranted⟩
    · intro hmet
      obtain ⟨target, htarget, action, haction, hgranted⟩ := hmet
      exact ⟨action, haction, target, htarget, hgranted⟩

/-- What memberships without a role are granted. Whatever a session did before and whatever its names
are, a query in which no membership has a role is allowed an action exactly if a membership that
counts meets, without a role, a cell which grants it; and something is listed as allowed in the
policies exactly if that is so for a declared action on the subject, or on an entity that the subject
gates. Where roles can be told in keys from no role, also in the forms that names of a class of their
own are shown in, nothing is granted. -/
theorem roleless_granted_iff (hs : s.world.Reached)
    (hread : readInput s.engine memberships subject = .ok input)
    (hroleless : ∀ m ∈ input.memberships, m.roleName.filter (· ≠ "") = none) :
    let g := s.engine.graph
    let published := s.engine.compiler.published
    let own := input.subject.name
    let granted := GrantedWithoutRole g published (resolve g input).held
    let policies := (getActorPolicies s.engine memberships subject).value
    (∀ action : Name, (isAllowed s.engine memberships action.toValue subject).value = true ↔
      granted own (actionKey own action.display)) ∧
    ((∃ entry ∈ policies, entry.2 = true) ↔
      (∃ action ∈ published.actions, granted own (actionKey own action.display)) ∨
      ∃ controller ∈ controllersOf g own, ∃ target ∈ controllersOf g own,
        ∃ action ∈ published.actions, granted (g.labelOf target).display
          (actionKey (g.labelOf controller).display action.display)) ∧
    (g.TellsRoles → g.StylesApart →
      (∀ action, (isAllowed s.engine memberships action subject).value = false) ∧
      ∀ entry ∈ policies, entry.2 = false) := by
  intro g published own granted policies
  have hquery : (query s.engine memberships subject).value = some (resolve g input) := by
    simp only [query, hread, g]
  have hheld := roleless_held (g := g) hroleless
  have hallowed (action : Name) :
      (isAllowed s.engine memberships action.toValue subject).value = true ↔
        granted own (actionKey own action.display) := by
    rw [isAllowed_toValue hquery]
    exact decide_of_roleless hs hquery hheld action
  have hlisted := listed_of_roleless hs hquery hheld
  refine ⟨hallowed, hlisted, fun htells hstyles => ?_⟩
  have hnothing (target shown : String) : ¬ granted target shown := by
    intro hgranted
    obtain ⟨m, -, hgrants⟩ := hgranted
    exact not_grants_without_role hs htells hstyles shown m.contextName target hgrants
  constructor
  · intro action
    cases haction : Name.ofValue? action with
    | none => simp only [isAllowed, explain, hquery, haction]
    | some name =>
      rw [← Name.toValue_of_ofValue? haction, ← Bool.not_eq_true, hallowed]
      exact hnothing _ _
  · intro entry hentry
    rw [← Bool.not_eq_true]
    intro htrue
    rcases hlisted.mp ⟨entry, hentry, htrue⟩ with ⟨action, -, hgranted⟩ |
      ⟨controller, -, target, -, action, -, hgranted⟩
    · exact hnothing _ _ hgranted
    · exact hnothing _ _ hgranted

end

/-- Whoever has no role in the organization above a course. -/
def rolelessInput : Input where
  memberships := [⟨"org", "o1", none, []⟩]
  subject := ⟨"course", "c1", [("org", some "o1")]⟩

/-- Without a role nothing is allowed on the course, which an admin may read. -/
theorem roleless_granted_iff_school :
    let s := ({} : Session).after schoolCommands
    let memberships := Value.list (rolelessInput.memberships.map (Membership.toValue .names))
    let subject := rolelessInput.subject.toValue
    readInput s.engine memberships subject = .ok rolelessInput ∧
      (∀ action, (isAllowed s.engine memberships action subject).value = false) ∧
      ∀ entry ∈ (getActorPolicies s.engine memberships subject).value, entry.2 = false := by
  intro s memberships subject
  have hread : readInput s.engine memberships subject = .ok rolelessInput := by rfl
  obtain ⟨-, -, hnothing⟩ := roleless_granted_iff (Session.World.reached_after schoolCommands) hread
    (by decide)
  have hplain : s.engine.graph.PlainlyNamed :=
    ⟨by decide +kernel, by decide +kernel, by decide +kernel, by decide +kernel⟩
  exact ⟨hread, hnothing (hplain.tellsRoles (by decide +kernel)) hplain.stylesApart⟩

/-- A context with a role that is called like no role: whoever has no role there may do what the role
may, and finds it listed. -/
theorem roleless_granted :
    let s := ({} : Session).after (namedCommands (.plain "org") (.plain "null") (.plain "read"))
    let memberships := Value.list [(⟨"org", "o1", none, []⟩ : Membership).toValue .names]
    let subject := (⟨"org", "o1", []⟩ : Subject).toValue
    readInput s.engine memberships subject = .ok ⟨[⟨"org", "o1", none, []⟩], ⟨"org", "o1", []⟩⟩ ∧
      (isAllowed s.engine memberships (.text "read") subject).value = true ∧
      (getActorPolicies s.engine memberships subject).value = [("read", true)] := by
  intro s memberships subject
  exact ⟨by rfl, by decide +kernel, by decide +kernel⟩

end Evaluation

end AccessMatrix
