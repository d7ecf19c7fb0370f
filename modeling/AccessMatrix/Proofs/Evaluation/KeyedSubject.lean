import AccessMatrix.Proofs.Evaluation.ActorPolicies
import AccessMatrix.Proofs.Evaluation.Chain

/-!
# Subjects that name every key

Where the subject names the key of every context above it, no membership is asked for one, so the way
up looks every context up by itself. Then what memberships tell of further contexts has no part in the
answers, and a membership on an instance of its own can only add keys: it neither stands in the place
of another nor leads the way to one.
-/

namespace AccessMatrix

/-- In every world that sessions lead to, what entities list by their nearness are ancestors, also
where parents were reassigned. -/
theorem Session.World.Reached.nearest_subset {w : World} (h : w.Reached) :
    ∀ e ∈ w.graph.entities, e.nearestFirst ⊆ e.ancestors := by
  refine h.keeps_graph (motive := fun g => ∀ e ∈ g.entities, e.nearestFirst ⊆ e.ancestors)
    (fun _ he => absurd he List.not_mem_nil) (fun {g _ _ _} hg hregister => ?_)
    fun hg name parents => ?_
  · obtain ⟨d, ancestors, -, -, rfl, rfl⟩ := Graph.register_cases hregister
    refine Graph.forall_mem_link.mpr ⟨hg, fun other hother => ?_⟩
    have hperm := Graph.nearestFirst_derive_perm g d ancestors
    exact (List.mem_filter.mp (hperm.mem_iff.mp hother)).1
  · refine List.forall_mem_map.mpr fun e he => ?_
    split
    · exact hg e he
    · exact hg e he

namespace Membership

/-- A membership without what it tells of further contexts. -/
def bare (m : Membership) : Membership := { m with ancestors := [] }

/-- What memberships tell of further contexts has no part in finding the last one on an instance. -/
theorem lastOn_map_bare (memberships : List Membership) (context key : String) :
    lastOn (memberships.map bare) context key = (lastOn memberships context key).map bare := by
  rw [lastOn, List.filter_map, List.getLast?_map]
  rfl

/-- One more membership on an instance of its own is found there, and on every other instance is found
what was found before. -/
theorem lastOn_insert {before after : List Membership} {m : Membership}
    (hfresh : ∀ other ∈ before ++ after, other.isOn m.contextName m.contextKey = false)
    (context key : String) :
    lastOn (before ++ m :: after) context key =
      if m.isOn context key then some m else lastOn (before ++ after) context key := by
  obtain ⟨hbefore, hafter⟩ := List.forall_mem_append.mp hfresh
  rw [lastOn, lastOn, List.filter_append, List.filter_append, List.filter_cons]
  split
  · rename_i hon
    obtain ⟨rfl, rfl⟩ := isOn_iff.mp hon
    rw [List.filter_eq_nil_iff.mpr fun other hother => by simp [hbefore other hother],
      List.filter_eq_nil_iff.mpr fun other hother => by simp [hafter other hother]]
    rfl
  · rfl

/-- Whatever was found is found with one more membership on an instance of its own. -/
theorem foundIn_insert {before after : List Membership} {m : Membership}
    (hfresh : ∀ other ∈ before ++ after, other.isOn m.contextName m.contextKey = false) :
    FoundIn (before ++ after) (before ++ m :: after) := by
  intro context key found hfound
  obtain ⟨hmem, rfl, rfl⟩ := mem_of_lastOn hfound
  have hother : m.isOn found.contextName found.contextKey = false := by
    have hfree := hfresh found hmem
    rw [Bool.eq_false_iff, Ne, isOn_iff] at hfree ⊢
    exact fun hon => hfree ⟨hon.1.symm, hon.2.symm⟩
  rw [lastOn_insert hfresh, hother]
  exact hfound

end Membership

namespace Evaluation

open AccessMatrix.Membership (FoundIn lastOn)
open Policy (accessKey)

/-- A subject names the key of its instance for every context among its ancestors. -/
def FullyKeyed (g : Graph) (own : Subject) : Prop :=
  ∀ context ∈ Policy.ancestorsOf g own.name, g.hasContext context = true →
    knownKey own.ancestors context ≠ none

instance (g : Graph) (own : Subject) : Decidable (FullyKeyed g own) :=
  inferInstanceAs (Decidable (∀ context ∈ Policy.ancestorsOf g own.name,
    g.hasContext context = true → knownKey own.ancestors context ≠ none))

/-- Where the subject names every key, what counts for a context is the last membership on the
instance that the subject names. -/
theorem chainFrom_of_keyed {given : Table String (Option String)} {contexts : List String}
    (hkeyed : ∀ context ∈ contexts, knownKey given context ≠ none) (memberships : List Membership)
    (known : Table String (Option String)) :
    chainFrom memberships given known contexts = contexts.filterMap fun context =>
      (knownKey given context).bind (lastOn memberships context) := by
  induction contexts generalizing known with
  | nil => rfl
  | cons context rest ih =>
    obtain ⟨hcontext, hrest⟩ := List.forall_mem_cons.mp hkeyed
    obtain ⟨key, hkey⟩ := Option.ne_none_iff_exists'.mp hcontext
    rw [chainFrom_cons, ih hrest, hkey, Option.some_or, Option.bind_some, List.filterMap_cons, hkey,
      Option.bind_some]
    cases lastOn memberships context key <;> rfl

/-- The contexts that a resolution goes through are among those whose keys a fully keyed subject
names. -/
theorem FullyKeyed.contexts {s : Session} (hs : s.world.Reached) {own : Subject}
    (h : FullyKeyed s.engine.graph own) :
    ∀ context ∈ (Policy.Round.contextsAbove s.engine.graph own.name).map Entity.name,
      knownKey own.ancestors context ≠ none := by
  intro context hmem
  rw [contextsAbove_eq, Graph.nearestOf] at hmem
  obtain ⟨hnearest, hcontext⟩ := List.mem_filter.mp hmem
  refine h context ?_ hcontext
  rw [Policy.ancestorsOf]
  cases hfind : s.engine.graph.find? own.name with
  | none => simp [hfind] at hnearest
  | some e =>
    rw [hfind] at hnearest
    exact hs.nearest_subset e (List.mem_of_find?_eq_some hfind) hnearest

variable {s : Session} {own : Subject} {memberships : List Membership}

/-- For a fully keyed subject, the chain looks up every context by the key that the subject names. -/
theorem FullyKeyed.chain_eq (hs : s.world.Reached) (h : FullyKeyed s.engine.graph own)
    (memberships : List Membership) :
    (resolve s.engine.graph ⟨memberships, own⟩).chain =
      ((Policy.Round.contextsAbove s.engine.graph own.name).map Entity.name).filterMap fun context =>
        (knownKey own.ancestors context).bind (lastOn memberships context) :=
  chainFrom_of_keyed (h.contexts hs) memberships []

/-- For a fully keyed subject, the memberships that count are the same but for what they tell, if those
given are. -/
theorem FullyKeyed.map_bare_held (hs : s.world.Reached) (h : FullyKeyed s.engine.graph own)
    {memberships' : List Membership}
    (hbare : memberships'.map Membership.bare = memberships.map Membership.bare) :
    (resolve s.engine.graph ⟨memberships', own⟩).direct?.map Membership.bare =
        (resolve s.engine.graph ⟨memberships, own⟩).direct?.map Membership.bare ∧
      (resolve s.engine.graph ⟨memberships', own⟩).held.map Membership.bare =
        (resolve s.engine.graph ⟨memberships, own⟩).held.map Membership.bare := by
  have hlast (context key : String) :
      (lastOn memberships' context key).map Membership.bare =
        (lastOn memberships context key).map Membership.bare := by
    rw [← Membership.lastOn_map_bare, hbare, Membership.lastOn_map_bare]
  have hdirect : (resolve s.engine.graph ⟨memberships', own⟩).direct?.map Membership.bare =
      (resolve s.engine.graph ⟨memberships, own⟩).direct?.map Membership.bare :=
    hlast own.name own.key
  refine ⟨hdirect, ?_⟩
  rw [Resolution.held, Resolution.held, h.chain_eq hs, h.chain_eq hs, List.map_append,
    List.map_append, List.map_filterMap, List.map_filterMap, ← Option.toList_map,
    ← Option.toList_map, hdirect]
  congr 1
  refine List.filterMap_congr fun context _ => ?_
  simp only [Option.map_bind, Function.comp_def, hlast]

/-- Memberships that are the same but for what they tell make the same keys for a fully keyed
subject. -/
theorem FullyKeyed.keys_eq (hs : s.world.Reached) (h : FullyKeyed s.engine.graph own)
    {memberships' : List Membership}
    (hbare : memberships'.map Membership.bare = memberships.map Membership.bare) :
    (resolve s.engine.graph ⟨memberships', own⟩).accessKeys =
        (resolve s.engine.graph ⟨memberships, own⟩).accessKeys ∧
      (resolve s.engine.graph ⟨memberships', own⟩).controllerKeys =
        (resolve s.engine.graph ⟨memberships, own⟩).controllerKeys := by
  obtain ⟨hdirect, hheld⟩ := h.map_bare_held hs hbare
  -- a key reads a membership's context and role only
  have hkeys (target : String) (role : Option String) :
      (resolve s.engine.graph ⟨memberships', own⟩).held.map
          (fun m => accessKey m.contextName m.roleName target role) =
        (resolve s.engine.graph ⟨memberships, own⟩).held.map
          fun m => accessKey m.contextName m.roleName target role := by
    have hread : (fun m : Membership => accessKey m.contextName m.roleName target role) =
        (fun m => accessKey m.contextName m.roleName target role) ∘ Membership.bare := rfl
    rw [hread, ← List.map_map, ← List.map_map, hheld]
  have hrole : (resolve s.engine.graph ⟨memberships', own⟩).givenRole =
      (resolve s.engine.graph ⟨memberships, own⟩).givenRole := by
    have hread (r : Resolution) :
        r.givenRole = (r.direct?.map Membership.bare).bind Membership.roleName := by
      rw [Option.bind_map]
      rfl
    rw [hread, hread, hdirect]
  constructor
  · change ((resolve s.engine.graph ⟨memberships', own⟩).held.map fun m => accessKey m.contextName
      m.roleName own.name (resolve s.engine.graph ⟨memberships', own⟩).givenRole).eraseDups = _
    rw [hkeys, hrole]
    rfl
  · change ((controllersOf s.engine.graph own.name).flatMap fun controller =>
      (resolve s.engine.graph ⟨memberships', own⟩).held.map fun m => accessKey m.contextName
        m.roleName (s.engine.graph.labelOf controller).display none).eraseDups = _
    simp only [hkeys]
    rfl

/-- The keys of one resolution are among those of another on the same subject. -/
structure Resolution.KeysWithin (r r' : Resolution) : Prop where
  subject : r.subject = r'.subject
  accessKeys : r.accessKeys ⊆ r'.accessKeys
  controllerKeys : r.controllerKeys ⊆ r'.controllerKeys

/-- What is allowed for some keys is allowed for more. -/
theorem Resolution.KeysWithin.decide_mono {r r' : Resolution} (h : r.KeysWithin r')
    {published : Policy.Snapshot} {action : Name}
    (hallowed : (decide published r action).allowed = true) :
    (decide published r' action).allowed = true := by
  rw [decide_allowed_iff] at hallowed ⊢
  obtain ⟨key, hkey, hmem⟩ := hallowed
  exact ⟨key, h.subject ▸ hkey, h.accessKeys hmem⟩

/-- What is listed as allowed for some keys is listed so for more. -/
theorem Resolution.KeysWithin.actorPolicies_mono {r r' : Resolution} (h : r.KeysWithin r') {g : Graph}
    {published : Policy.Snapshot} (hnodup : (published.actions.map Name.text).Nodup) {shown : String}
    (hlisted : (actorPolicies g published r).get? shown = some true) :
    (actorPolicies g published r').get? shown = some true := by
  rw [get?_actorPolicies_eq_true_iff hnodup] at hlisted ⊢
  rcases hlisted with ⟨action, haction, htext, hallowed⟩ | hgated
  · exact .inl ⟨action, haction, htext, h.decide_mono hallowed⟩
  · obtain ⟨controller, hcontroller, action, haction, ⟨key, hkey, hmem⟩, hshown⟩ := hgated
    exact .inr ⟨controller, h.subject ▸ hcontroller, action, haction,
      ⟨key, hkey, h.controllerKeys hmem⟩, hshown⟩

/-- For a fully keyed subject, what counted counts with one more membership on an instance of its own,
and the direct membership stays if the instance is not the subject's. -/
theorem FullyKeyed.held_insert (hs : s.world.Reached) (h : FullyKeyed s.engine.graph own)
    {before after : List Membership} {m : Membership}
    (hfresh : ∀ other ∈ before ++ after, other.isOn m.contextName m.contextKey = false)
    (hother : m.isOn own.name own.key = false) :
    (resolve s.engine.graph ⟨before ++ m :: after, own⟩).direct? =
        (resolve s.engine.graph ⟨before ++ after, own⟩).direct? ∧
      (resolve s.engine.graph ⟨before ++ after, own⟩).held ⊆
        (resolve s.engine.graph ⟨before ++ m :: after, own⟩).held := by
  have hdirect : (resolve s.engine.graph ⟨before ++ m :: after, own⟩).direct? =
      (resolve s.engine.graph ⟨before ++ after, own⟩).direct? := by
    change lastOn (before ++ m :: after) own.name own.key = lastOn (before ++ after) own.name own.key
    rw [Membership.lastOn_insert hfresh, hother]
    rfl
  refine ⟨hdirect, ?_⟩
  rw [Resolution.held, Resolution.held, hdirect, h.chain_eq hs, h.chain_eq hs]
  refine List.append_subset.mpr ⟨List.subset_append_left _ _, fun found hmem => ?_⟩
  obtain ⟨context, hcontext, hlast⟩ := List.mem_filterMap.mp hmem
  obtain ⟨key, hkey, hlast⟩ := Option.bind_eq_some_iff.mp hlast
  refine List.mem_append_right _ (List.mem_filterMap.mpr ⟨context, hcontext, ?_⟩)
  rw [hkey, Option.bind_some]
  exact Membership.foundIn_insert hfresh context key found hlast

/-- One more membership on an instance of its own, which is not the subject's, only adds keys for a
fully keyed subject. -/
theorem FullyKeyed.keysWithin_insert (hs : s.world.Reached) (h : FullyKeyed s.engine.graph own)
    {before after : List Membership} {m : Membership}
    (hfresh : ∀ other ∈ before ++ after, other.isOn m.contextName m.contextKey = false)
    (hother : m.isOn own.name own.key = false) :
    (resolve s.engine.graph ⟨before ++ after, own⟩).KeysWithin
      (resolve s.engine.graph ⟨before ++ m :: after, own⟩) := by
  obtain ⟨hdirect, hheld⟩ := h.held_insert hs hfresh hother
  refine ⟨rfl, fun key hkey => ?_, fun key hkey => ?_⟩
  · obtain ⟨found, hmem, rfl⟩ := mem_accessKeys.mp hkey
    refine mem_accessKeys.mpr ⟨found, hheld hmem, ?_⟩
    rw [Resolution.keyOf, Resolution.keyOf, Resolution.givenRole, Resolution.givenRole, hdirect]
    rfl
  · obtain ⟨controller, hcontroller, found, hmem, rfl⟩ := mem_controllerKeys.mp hkey
    exact mem_controllerKeys.mpr ⟨controller, hcontroller, found, hheld hmem, rfl⟩

/-- A fully keyed subject is asked about alone. Whatever a session did before, let a query be read whose
subject names the key of every context among its ancestors. Then the answers are the same whatever its
memberships tell of further contexts. And one more membership anywhere, if it is on an instance that
none was on before and not on the subject's, leaves allowed what was allowed and listed as allowed what
was listed so. -/
theorem keyed_subject_monotone (hs : s.world.Reached) {given shown : Value} {input : Input}
    (hread : readInput s.engine given shown = .ok input)
    (hkeyed : FullyKeyed s.engine.graph input.subject) :
    (∀ given' memberships',
      readInput s.engine given' shown = .ok ⟨memberships', input.subject⟩ →
      memberships'.map Membership.bare = input.memberships.map Membership.bare →
      (∀ action, (isAllowed s.engine given' action shown).value =
        (isAllowed s.engine given action shown).value) ∧
      (getActorPolicies s.engine given' shown).value =
        (getActorPolicies s.engine given shown).value) ∧
    (∀ given' before m after, input.memberships = before ++ after →
      readInput s.engine given' shown = .ok ⟨before ++ m :: after, input.subject⟩ →
      (∀ other ∈ input.memberships, other.isOn m.contextName m.contextKey = false) →
      m.isOn input.subject.name input.subject.key = false →
      (∀ action, (isAllowed s.engine given action shown).value = true →
        (isAllowed s.engine given' action shown).value = true) ∧
      ∀ listed, (getActorPolicies s.engine given shown).value.get? listed = some true →
        (getActorPolicies s.engine given' shown).value.get? listed = some true) := by
  obtain ⟨memberships, own⟩ := input
  have hresolve {given : Value} {memberships : List Membership}
      (h : readInput s.engine given shown = .ok ⟨memberships, own⟩) :
      (query s.engine given shown).value = some (resolve s.engine.graph ⟨memberships, own⟩) := by
    simp only [query, h]
  have hquery := hresolve hread
  refine ⟨fun given' memberships' hread' hbare => ?_,
    fun given' before m after hsplit hread' hfresh hother => ?_⟩
  · have hquery' := hresolve hread'
    obtain ⟨haccess, hcontrollers⟩ := hkeyed.keys_eq hs hbare
    have hsubject : (resolve s.engine.graph ⟨memberships', own⟩).subject =
        (resolve s.engine.graph ⟨memberships, own⟩).subject := rfl
    constructor
    · intro action
      rw [isAllowed_of_query hquery', isAllowed_of_query hquery]
      simp only [decide, hsubject, haccess]
    · rw [getActorPolicies_of_query hquery', getActorPolicies_of_query hquery]
      simp only [actorPolicies, hsubject, haccess, hcontrollers]
  · have hquery' := hresolve hread'
    obtain rfl : memberships = before ++ after := hsplit
    have hwithin := hkeyed.keysWithin_insert hs hfresh hother
    constructor
    · intro action hallowed
      rw [isAllowed_of_query hquery, Option.any_eq_true] at hallowed
      rw [isAllowed_of_query hquery', Option.any_eq_true]
      obtain ⟨name, haction, hallowed⟩ := hallowed
      exact ⟨name, haction, hwithin.decide_mono hallowed⟩
    · intro listed hlisted
      rw [getActorPolicies_of_query hquery] at hlisted
      rw [getActorPolicies_of_query hquery']
      exact hwithin.actorPolicies_mono (nodup_actions_published hs) hlisted

/-- An admin of the organization above a course, who tells of another organization. -/
def toldInput : Input where
  memberships := [⟨"org", "o1", some "admin", [("org", some "o2")]⟩]
  subject := ⟨"course", "c1", [("org", some "o1")]⟩

/-- The admin reads the course just the same without telling, and as a guest of the other organization
besides. -/
theorem keyed_subject_monotone_school :
    let s := ({} : Session).after schoolCommands
    let shown := toldInput.subject.toValue
    let given (memberships : List Membership) :=
      Value.list (memberships.map (Membership.toValue .names))
    let guest : Membership := ⟨"org", "o2", some "guest", []⟩
    let allowed (memberships : List Membership) :=
      (isAllowed s.engine (given memberships) (.text "read") shown).value
    FullyKeyed s.engine.graph toldInput.subject ∧
      allowed toldInput.memberships = true ∧
      allowed (toldInput.memberships.map Membership.bare) = true ∧
      allowed (guest :: toldInput.memberships) = true := by
  intro s shown given guest allowed
  have hread : readInput s.engine (given toldInput.memberships) shown = .ok toldInput := by rfl
  have hkeyed : FullyKeyed s.engine.graph toldInput.subject := by decide +kernel
  have hallowed : allowed toldInput.memberships = true := by decide +kernel
  obtain ⟨hbare, hmore⟩ :=
    keyed_subject_monotone (Session.World.reached_after schoolCommands) hread hkeyed
  obtain ⟨hsame, -⟩ := hbare (given (toldInput.memberships.map Membership.bare)) _ (by rfl)
    (by decide)
  obtain ⟨hkept, -⟩ := hmore (given (guest :: toldInput.memberships)) [] guest _ rfl (by rfl)
    (by decide) (by decide)
  exact ⟨hkeyed, hallowed, (hsame (.text "read")).trans hallowed, hkept (.text "read") hallowed⟩

end Evaluation

end AccessMatrix
