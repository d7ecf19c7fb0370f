import AccessMatrix.Proofs.Evaluation.ActorPolicies
import AccessMatrix.Proofs.Graph.RegistrationOrder
import AccessMatrix.Proofs.Policy.Order

/-!
# Decisions and the order of registrations

The compiler goes through the entities of a graph in the order of their registration, so another order
gives the cells in another order. The cells are the same, and so is what the index holds under each
key. A resolution looks up the same contexts in the same order, and the entities that a subject gates
are gone through by their names. So no answer depends on the order of registrations.
-/

namespace AccessMatrix

namespace Policy

variable {g g' : Graph}

/-- The slots of a self-policy are told by names alone. -/
theorem Round.selfSlots_eq (g : Graph) (key : String × String) :
    selfSlots g key =
      ((g.nearestOf key.1).filter g.hasContext).flatMap (fun above =>
        (g.rolesOf above).map fun role => ⟨above, role, key.1, some key.2⟩) ++
        [⟨key.1, key.2, key.1, none⟩] := by
  have hroles {above : Entity} (habove : above ∈ contextsAbove g key.1) :
      g.rolesOf above.name = above.roles := by
    obtain ⟨name, -, hfind⟩ := List.mem_filterMap.mp (List.mem_filter.mp habove).1
    obtain rfl : above.name = name := Graph.name_of_find? hfind
    rw [Graph.rolesOf, hfind]
    rfl
  have hnames : (contextsAbove g key.1).map Entity.name =
      (g.nearestOf key.1).filter g.hasContext := Graph.map_name_contextsAmong g _
  rw [selfSlots, ← hnames, List.flatMap_map]
  refine congrArg (· ++ _) (List.flatMap_congr fun above habove => ?_)
  rw [hroles habove]

/-- A round resolves to the same over the same entities, in whatever order they were registered. -/
theorem Round.resolve_eq_of_sameSaid (h : g.SameSaid g') (round : Round) :
    round.resolve g = round.resolve g' := by
  have hbroad : broadSlots g = broadSlots g' := by
    funext key
    rw [broadSlots, scopesOf, h.rolesOf_eq, broadSlots, scopesOf]
  have hself : selfSlots g = selfSlots g' := by
    funext key
    rw [selfSlots_eq, selfSlots_eq, h.nearestOf_eq, h.hasContext_eq, h.rolesOf_eq]
  rw [resolve, resolve, hbroad, hself]

/-- A reference means entities of which the same was said, or no entity in either graph. -/
theorem refersTo_cases (h : g.SameSaid g') (ref : Ref) :
    (g.refersTo ref = none ∧ g'.refersTo ref = none) ∨
      ∃ e e', g.refersTo ref = some e ∧ g'.refersTo ref = some e' ∧ e.described = e'.described := by
  have hcases (name : String) : (g.find? name = none ∧ g'.find? name = none) ∨
      ∃ e e', g.find? name = some e ∧ g'.find? name = some e' ∧ e.described = e'.described := by
    cases hfind : g.find? name with
    | none => exact .inl ⟨rfl, h.not_found hfind⟩
    | some e =>
      obtain ⟨e', hfind', hsame⟩ := h.found hfind
      exact .inr ⟨e, e', rfl, hfind', hsame⟩
  cases ref with
  | own name => exact hcases name
  | foreign name => exact .inl ⟨rfl, rfl⟩
  | value v =>
    simp only [Graph.refersTo, Graph.named?]
    cases v.asText? with
    | none => exact .inl ⟨rfl, rfl⟩
    | some name => exact hcases name

/-- A declaration names entities of which the same was said, or is refused alike. -/
theorem Request.resolve_cases (h : g.SameSaid g') (ref : Ref) :
    (∃ error, resolve g ref = .error error ∧ resolve g' ref = .error error) ∨
      ∃ e e', resolve g ref = .ok e ∧ resolve g' ref = .ok e' ∧ e.described = e'.described := by
  have hrequire : (∃ error, g.require ref = .error error ∧ g'.require ref = .error error) ∨
      ∃ e e', g.require ref = .ok e ∧ g'.require ref = .ok e' ∧ e.described = e'.described := by
    simp only [Graph.require]
    rcases refersTo_cases h ref with ⟨hnone, hnone'⟩ | ⟨e, e', he, he', hsame⟩
    · rw [hnone, hnone']
      cases ref with
      | own name | foreign name => exact .inl ⟨_, rfl, rfl⟩
      | value v =>
        cases hkey : Error.ofMisuse v.checkKey with
        | error error => exact .inl ⟨error, by simp only [hkey]; rfl, by simp only [hkey]; rfl⟩
        | ok => exact .inl ⟨_, by simp only [hkey]; rfl, by simp only [hkey]; rfl⟩
    · rw [he, he']
      cases ref with
      | own name | foreign name => exact .inr ⟨e, e', rfl, rfl, hsame⟩
      | value v =>
        cases hkey : Error.ofMisuse v.checkKey with
        | error error => exact .inl ⟨error, by simp only [hkey]; rfl, by simp only [hkey]; rfl⟩
        | ok => exact .inr ⟨e, e', by simp only [hkey]; rfl, by simp only [hkey]; rfl, hsame⟩
  rcases hrequire with ⟨error, herror, herror'⟩ | ⟨e, e', he, he', hsame⟩
  · refine .inl ?_
    rw [resolve, resolve, herror, herror']
    split
    · exact ⟨_, rfl, rfl⟩
    · exact ⟨_, rfl, rfl⟩
  · refine .inr ⟨e, e', ?_, ?_, hsame⟩
    · rw [resolve, he]
    · rw [resolve, he']

/-- A declaration is checked alike. -/
theorem Request.check_eq (h : g.SameSaid g') (r : Request) : r.check g = r.check g' := by
  rcases resolve_cases h r.context with ⟨error, herror, herror'⟩ | ⟨c, c', hc, hc', hcontext⟩
  · rw [check, check, herror, herror']
    rfl
  · rcases resolve_cases h r.subject with ⟨error, herror, herror'⟩ | ⟨e, e', he, he', hsubject⟩
    · rw [check, check, hc, hc', herror, herror']
      rfl
    · -- a check reads no more of the two entities than what was said of them
      rw [check, check, hc, hc', he, he']
      cases c
      cases c'
      cases e
      cases e'
      obtain ⟨rfl, rfl, rfl, rfl⟩ := Draft.mk.inj hcontext
      obtain ⟨rfl, rfl, rfl, rfl⟩ := Draft.mk.inj hsubject
      rfl

namespace Snapshot

/-- Entities that are alike have the same slots over each other. -/
theorem slotsOver_congr {context context' subject subject' : Entity}
    (hcontext : context.described = context'.described) (hsubject : subject.Counterpart subject')
    (role : Name) : slotsOver context role subject = slotsOver context' role subject' := by
  have hcontextLabel : context.label = context'.label := congrArg Draft.label hcontext
  have hsubjectLabel : subject.label = subject'.label := congrArg Draft.label hsubject.described
  have hroles : subject.roleLabels = subject'.roleLabels :=
    congrArg Draft.roleLabels hsubject.described
  have hcontextName : context.name = context'.name := congrArg Name.text hcontextLabel
  have hsubjectName : subject.name = subject'.name := congrArg Name.text hsubjectLabel
  rw [slotsOver, slotsOver, hcontextLabel, hcontextName, hsubjectLabel, hsubjectName, hroles]
  exact if_congr (hsubject.descendants _) rfl rfl

/-- The slots of a matrix over the same entities are the same. -/
theorem mem_slots_of_sameSaid (h : g.SameSaid g') {place : LabelledSlot} (hplace : place ∈ slots g) :
    place ∈ slots g' := by
  obtain ⟨context, hcontext, hplace⟩ := List.mem_flatMap.mp hplace
  obtain ⟨role, hrole, hplace⟩ := List.mem_flatMap.mp hplace
  obtain ⟨subject, hsubject, hplace⟩ := List.mem_flatMap.mp hplace
  obtain ⟨hregistered, hkind⟩ := List.mem_filter.mp hcontext
  obtain ⟨context', hcontext', hsame⟩ := h.found (h.registered.find?_name hregistered)
  obtain ⟨subject', hsubject', -⟩ := h.found (h.registered.find?_name hsubject)
  have hsameKind : context.kind = context'.kind := congrArg Draft.kind hsame
  have hkind' : context'.isContext = true := by
    rwa [Entity.isContext, ← hsameKind]
  have hroles : context.roleLabels = context'.roleLabels := congrArg Draft.roleLabels hsame
  rw [slotsOver_congr hsame (h.counterpart (h.registered.find?_name hsubject) hsubject')] at hplace
  exact List.mem_flatMap.mpr ⟨context',
    List.mem_filter.mpr ⟨List.mem_of_find?_eq_some hcontext', hkind'⟩,
    List.mem_flatMap.mpr ⟨role, hroles ▸ hrole,
      List.mem_flatMap.mpr ⟨subject', List.mem_of_find?_eq_some hsubject', hplace⟩⟩⟩

/-- A round compiles to the same index over the same entities. -/
theorem sameIndex_of_sameSaid (h : g.SameSaid g') (round : Round) :
    SameIndex (compile g round) (compile g' round) := by
  refine fun shown => get?_index_congr fun key => ?_
  have hslots (place : LabelledSlot) : place ∈ slots g ↔ place ∈ slots g' :=
    ⟨mem_slots_of_sameSaid h, mem_slots_of_sameSaid h.symm⟩
  have hkeys : key ∈ (compile g round).keysFor shown ↔ key ∈ (compile g' round).keysFor shown := by
    simp only [mem_keysFor_compile, hslots, Round.resolve_eq_of_sameSaid h]
  exact hkeys

end Snapshot

end Policy

/-- Names come in one rising order, whatever order they are given in. -/
theorem sortedNames_eq_of_perm {names names' : List String} (h : names.Perm names') :
    sortedNames names = sortedNames names' := by
  have hsorted (names : List String) : (sortedNames names).Pairwise (· ≤ ·) := by
    have hpairwise : (sortedNames names).Pairwise fun a b => decide (a ≤ b) = true := by
      rw [sortedNames]
      refine List.pairwise_mergeSort (fun a b c hab hbc => ?_) (fun a b => ?_) names
      · exact decide_eq_true (String.le_trans (of_decide_eq_true hab) (of_decide_eq_true hbc))
      · simpa using String.le_total a b
    simpa only [decide_eq_true_eq] using hpairwise
  have hperm : (sortedNames names).Perm (sortedNames names') :=
    ((List.mergeSort_perm names _).trans h).trans (List.mergeSort_perm names' _).symm
  exact hperm.eq_of_pairwise (fun _ _ _ _ => String.le_antisymm) (hsorted names) (hsorted names')

namespace Evaluation

open Policy (Compiler Declaration Request Round Snapshot)

variable {g g' : Graph}

/-- A name gates the same entities. -/
theorem controllersOf_perm (h : g.SameSaid g') (name : String) :
    (controllersOf g name).Perm (controllersOf g' name) := by
  cases hfind : g.find? name with
  | none => rw [controllersOf, controllersOf, hfind, h.not_found hfind]
  | some e =>
    obtain ⟨e', hfind', -⟩ := h.found hfind
    rw [controllersOf, controllersOf, hfind, hfind']
    exact (List.perm_ext_iff_of_nodup
      (h.registered.nodup_controllers e (List.mem_of_find?_eq_some hfind))
      (h.registered'.nodup_controllers e' (List.mem_of_find?_eq_some hfind'))).mpr
        (h.counterpart hfind hfind').controllers

/-- Two resolutions of one input that look up the same keys. -/
structure SameKeys (r r' : Resolution) : Prop where
  subject : r.subject = r'.subject
  accessKeys : r.accessKeys = r'.accessKeys
  controllerKeys : ∀ key, key ∈ r.controllerKeys ↔ key ∈ r'.controllerKeys

/-- An input resolves to the same keys over the same entities. -/
theorem sameKeys_of_sameSaid (h : g.SameSaid g') (input : Input) :
    SameKeys (resolve g input) (resolve g' input) := by
  have hcontexts : (Round.contextsAbove g input.subject.name).map Entity.name =
      (Round.contextsAbove g' input.subject.name).map Entity.name := by
    rw [Round.contextsAbove, Graph.map_name_contextsAmong, Round.contextsAbove,
      Graph.map_name_contextsAmong, ← Graph.nearestOf, h.nearestOf_eq, h.hasContext_eq]
    rfl
  refine ⟨rfl, ?_, fun key => ?_⟩
  · simp only [resolve, hcontexts]
  · simp only [resolve, hcontexts, h.labelOf_eq, List.mem_eraseDups, List.mem_flatMap,
      (controllersOf_perm h input.subject.name).mem_iff]

/-- What is granted for some keys is told alike by the same index. -/
theorem any_allowanceFor_congr {s s' : Snapshot} (h : Snapshot.SameIndex s s')
    {keys keys' : List String} (hkeys : ∀ key, key ∈ keys ↔ key ∈ keys') (subject action : String) :
    (s.allowanceFor subject action).any keys.contains =
      (s'.allowanceFor subject action).any keys'.contains := by
  rw [Bool.eq_iff_iff]
  simp only [List.any_eq_true, List.contains_iff_mem, Snapshot.allowanceFor,
    (h.keysFor_perm _).mem_iff, hkeys]

/-- Over the same entities and the same index, the policies of an actor are the same. -/
theorem actorPolicies_eq (h : g.SameSaid g') {s s' : Snapshot} (hindex : Snapshot.SameIndex s s')
    (hactions : s.actions = s'.actions) {r r' : Resolution} (hkeys : SameKeys r r') :
    actorPolicies g s r = actorPolicies g' s' r' := by
  have haccess (key : String) : key ∈ r.accessKeys ↔ key ∈ r'.accessKeys := by rw [hkeys.accessKeys]
  have hcontrollers : sortedNames (controllersOf g r'.subject.name) =
      sortedNames (controllersOf g' r'.subject.name) :=
    sortedNames_eq_of_perm (controllersOf_perm h _)
  simp only [actorPolicies, hcontrollers, hkeys.subject, h.labelOf_eq, hactions,
    any_allowanceFor_congr hindex haccess, any_allowanceFor_congr hindex hkeys.controllerKeys]

/-- Over the same entities and the same index, every query is answered alike. -/
theorem answers_eq (h : g.SameSaid g') {c c' : Compiler}
    (hindex : Snapshot.SameIndex c.published c'.published)
    (hactions : c.published.actions = c'.published.actions) (e : Engine)
    (memberships action subject : Value) :
    isAllowed { e with graph := g, compiler := c } memberships action subject =
        isAllowed { e with graph := g', compiler := c' } memberships action subject ∧
      getActorPolicies { e with graph := g, compiler := c } memberships subject =
        getActorPolicies { e with graph := g', compiler := c' } memberships subject := by
  have hread (g : Graph) (c : Compiler) :
      readInput { e with graph := g, compiler := c } memberships subject =
        readInput e memberships subject := rfl
  cases hinput : readInput e memberships subject with
  | error error =>
    constructor
    · simp only [isAllowed, explain, query, hread, hinput]
      rfl
    · simp only [getActorPolicies, query, hread, hinput]
      rfl
  | ok input =>
    have hkeys := sameKeys_of_sameSaid h input
    constructor
    · cases haction : Name.ofValue? action with
      | none => simp only [isAllowed, explain, query, hread, hinput, haction]
      | some name =>
        have hallowed :
            (decide c.published (resolve g input) name).allowed =
              (decide c'.published (resolve g' input) name).allowed := by
          rw [← any_allowanceFor, ← any_allowanceFor, hkeys.subject]
          exact any_allowanceFor_congr hindex (fun key => by rw [hkeys.accessKeys]) _ _
        simp only [isAllowed, explain, query, hread, hinput, haction, decisionRecord, hallowed,
          hkeys.subject, hkeys.accessKeys]
        rfl
    · simp only [getActorPolicies, query, hread, hinput, Option.map_some, Option.getD_some,
        actorPolicies_eq h hindex hactions hkeys]

/-- The order of registrations does not matter. Let the same be said in two sequences of registrations
that succeed, in whatever orders. Then the same names are registered in the two graphs, for entities
that are alike in every relation; a declaration is accepted or refused alike, for the same reason; and
after any declarations a build has the same index and every query the same answer. -/
theorem registration_order_ignored {g g' : Graph} {rs rs' : List Registration}
    (h : Graph.registerAll {} rs = some g) (h' : Graph.registerAll {} rs' = some g')
    (hsame : (rs.map Registration.described).Perm (rs'.map Registration.described)) :
    (∀ name, Option.Rel Entity.Counterpart (g.find? name) (g'.find? name)) ∧
    (∀ r : Request, r.check g = r.check g') ∧
    ∀ (c c' : Compiler) (ds : List Declaration),
      let built := (c.clear.recordAll ds).build g
      let built' := (c'.clear.recordAll ds).build g'
      Snapshot.SameIndex built.published built'.published ∧
        ∀ (e : Engine) (memberships action subject : Value),
          isAllowed { e with graph := g, compiler := built } memberships action subject =
              isAllowed { e with graph := g', compiler := built' } memberships action subject ∧
            getActorPolicies { e with graph := g, compiler := built } memberships subject =
              getActorPolicies { e with graph := g', compiler := built' } memberships subject := by
  have hsaid : g.SameSaid g' := by
    refine Graph.sameSaid_of_perm (Graph.Registered.empty.registerAll h)
      (Graph.Registered.empty.registerAll h') ?_
    have hdescribed := Graph.described_registerAll h
    have hdescribed' := Graph.described_registerAll h'
    rw [List.map_nil, List.nil_append, ← List.map_map] at hdescribed hdescribed'
    rw [← hdescribed, ← hdescribed'] at hsame
    exact (List.map_perm_map_iff fun _ _ => Option.some.inj).mp hsame
  refine ⟨hsaid.rel_find?, Request.check_eq hsaid, fun c c' ds => ?_⟩
  intro built built'
  have hbuilt : built.published = .compile g (.ofDeclarations ds) :=
    congrArg (Snapshot.compile g) (Compiler.round_recordAll_clear c ds)
  have hbuilt' : built'.published = .compile g' (.ofDeclarations ds) :=
    congrArg (Snapshot.compile g') (Compiler.round_recordAll_clear c' ds)
  have hindex : Snapshot.SameIndex built.published built'.published := by
    rw [hbuilt, hbuilt']
    exact Snapshot.sameIndex_of_sameSaid hsaid _
  have hactions : built.published.actions = built'.published.actions := by
    rw [hbuilt, hbuilt']
    rfl
  exact ⟨hindex, answers_eq hsaid hindex hactions⟩

/-- An organization with a course and with a wing that has a desk, which is in the course too. -/
def deskRegistrations : List Registration :=
  [{ kind := .context, name := .text "org", roles := .ofTexts ["admin"] },
    { kind := .context, name := .text "course", roles := .ofTexts ["staff"],
      parents := .each [.own "org"] },
    { kind := .plain, name := .text "wing", parents := .each [.own "org"] },
    { kind := .product, name := .text "desk", parents := .each [.own "wing", .own "course"] }]

/-- The same with the wing before the course, and the parents named by texts. -/
def deskRegistrationsAnew : List Registration :=
  [{ kind := .context, name := .text "org", roles := .ofTexts ["admin"] },
    { kind := .plain, name := .text "wing", parents := .among (.ofTexts ["org", "org"]) },
    { kind := .context, name := .text "course", roles := .ofTexts ["staff"],
      parents := .among (.ofTexts ["org"]) },
    { kind := .product, name := .text "desk", parents := .among (.ofTexts ["wing", "course"]) }]

/-- Whichever of the course and the wing was registered first, the desk has the same level and the
admin of the organization reads the course. -/
theorem registration_order_ignored_desk :
    let g := (Graph.registerAll {} deskRegistrations).getD {}
    let g' := (Graph.registerAll {} deskRegistrationsAnew).getD {}
    let ds : List Declaration :=
      [{ context := .plain "org", role := .plain "admin", subject := .plain "course",
         actions := [(.plain "read", true)] }]
    let built := (Compiler.recordAll (Compiler.clear {}) ds).build g
    let built' := (Compiler.recordAll (Compiler.clear {}) ds).build g'
    let memberships := Value.list [(⟨"org", "o1", some "admin", []⟩ : Membership).toValue .names]
    let subject := (⟨"course", "c1", [("org", some "o1")]⟩ : Subject).toValue
    (deskRegistrations.map Registration.described).Perm
        (deskRegistrationsAnew.map Registration.described) ∧
      g.names ≠ g'.names ∧
      Option.Rel Entity.Counterpart (g.find? "desk") (g'.find? "desk") ∧
      (isAllowed { graph := g, compiler := built } memberships (.text "read") subject).value =
        true ∧
      (isAllowed { graph := g', compiler := built' } memberships (.text "read") subject).value =
        true := by
  intro g g' ds built built' memberships subject
  have h : Graph.registerAll {} deskRegistrations = some g :=
    (Option.getD_of_ne_none (by decide +kernel) _).symm
  have h' : Graph.registerAll {} deskRegistrationsAnew = some g' :=
    (Option.getD_of_ne_none (by decide +kernel) _).symm
  have hsame : (deskRegistrations.map Registration.described).Perm
      (deskRegistrationsAnew.map Registration.described) := by
    decide +kernel
  obtain ⟨hcounterparts, -, hanswers⟩ := registration_order_ignored h h' hsame
  have hanswer := ((hanswers {} {} ds).2 { graph := g } memberships (.text "read") subject).1
  have hallowed : (isAllowed { graph := g, compiler := built } memberships (.text "read")
      subject).value = true := by
    decide +kernel
  exact ⟨hsame, by decide +kernel, hcounterparts "desk", hallowed, hanswer ▸ hallowed⟩

end Evaluation

end AccessMatrix
