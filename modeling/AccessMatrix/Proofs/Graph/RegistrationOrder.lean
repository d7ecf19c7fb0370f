import AccessMatrix.Proofs.Graph.Nearness

/-!
# The order of registrations

An entity is registered after its parents, and what it stores is filled in bit by bit: ancestors when
it is registered, children, descendants and controllers whenever another one is. In the end all of it
is told by the parent links alone, so it does not depend on the order. What the links do not tell,
levels and required ancestors, follows from those of the parents, and the induction is along the
links. The ancestors are listed in an order that levels and names leave no choice in.
-/

namespace AccessMatrix

open Outcome

/-- The name that a reference gives; an entity of another graph is none of those referred to. -/
def Ref.name? : Ref → Option String
  | .own name => some name
  | .foreign _ => none
  | .value v => v.asText?

/-- The roles that a registration gives, one by one. -/
def Registration.givenRoles (r : Registration) : Option (List Value) :=
  if r.kind = .context then r.roles.iterate.toOption else some []

/-- What a registration says of an entity, whatever was registered before: its kind, its label, the
labels of its roles, and the names of its parents, each once. -/
def Registration.described (r : Registration) : Option Draft := do
  let label ← r.name.asName?
  let roles ← r.givenRoles
  let roleLabels ← (Graph.checkRoles label [] roles).toOption
  let refs ← r.parents.toList.toOption
  let parents ← refs.mapM Ref.name?
  return { kind := r.kind, label, roleLabels, parents := parents.eraseDups }

/-- What was said of an entity when it was registered. -/
def Entity.described (e : Entity) : Draft := ⟨e.kind, e.label, e.roleLabels, e.parents⟩

namespace Graph

/-- A reference gives the name of the entity that it is resolved to. -/
theorem name?_of_refersTo {g : Graph} {ref : Ref} {e : Entity} (h : g.refersTo ref = some e) :
    ref.name? = some e.name := by
  cases ref with
  | own name =>
    have hname : e.name = name := name_of_find? h
    rw [Ref.name?, hname]
  | foreign name => contradiction
  | value v =>
    obtain ⟨name, hname, hfind⟩ := Option.bind_eq_some_iff.mp h
    obtain rfl : e.name = name := name_of_find? hfind
    exact hname

/-- Resolved parents are the names that the references give, each once. -/
theorem names_of_resolveParents {g : Graph} {name : Name} {refs : List Ref}
    {parents : List String} (h : g.resolveParents name refs = .ok parents) :
    ∃ names, refs.mapM Ref.name? = some names ∧ parents = names.eraseDups := by
  induction refs generalizing parents with
  | nil =>
    obtain rfl : [] = parents := by simpa [resolveParents] using h
    exact ⟨[], rfl, rfl⟩
  | cons ref rest ih =>
    simp only [resolveParents] at h
    split at h
    · contradiction
    · rename_i parent hparent
      simp only [bind_eq_ok, pure_eq_ok] at h
      obtain ⟨others, hothers, rfl⟩ := h
      obtain ⟨names, hnames, rfl⟩ := ih hothers
      refine ⟨parent.name :: names, ?_, ?_⟩
      · simp [List.mapM_cons, name?_of_refersTo hparent, hnames]
      · have hsame : (fun other => !other == parent.name) =
            fun other => decide (other ≠ parent.name) := by
          funext other
          by_cases hother : other = parent.name <;> simp [hother]
        rw [List.eraseDups_cons, eraseDups_filter, hsame]

/-- A draft is what the registration says of the entity. -/
theorem described_of_draft {g : Graph} {r : Registration} {d : Draft} (h : g.draft r = .ok d) :
    r.described = some d := by
  obtain ⟨roles, refs, hcontext, hroles, hrefs, hkind, hlabel, -, hparents, hlabels⟩ :=
    draft_cases h
  obtain ⟨names, hnames, hnamed⟩ := names_of_resolveParents hparents
  have hgiven : r.givenRoles = some roles := by
    rw [Registration.givenRoles]
    split
    · rename_i hkind
      rw [hcontext hkind]
      rfl
    · rename_i hkind
      rw [hroles hkind]
  obtain ⟨kind, label, roleLabels, parents⟩ := d
  dsimp only at hkind hlabel hlabels hnamed
  subst hkind hnamed
  simp [Registration.described, hlabel, hgiven, hlabels, hrefs, hnames, Except.toOption]

/-- What is registered in the end is what the registrations said, one after the other. -/
theorem described_registerAll {g g' : Graph} {rs : List Registration}
    (h : g.registerAll rs = some g') :
    g'.entities.map (some ∘ Entity.described) =
      g.entities.map (some ∘ Entity.described) ++ rs.map Registration.described := by
  induction rs generalizing g with
  | nil =>
    obtain rfl := Option.some.inj h
    simp
  | cons r rest ih =>
    obtain ⟨⟨next, e⟩, hnext, h⟩ := Option.bind_eq_some_iff.mp h
    have hregister : g.register r = .ok (next, e) := by
      cases hresult : g.register r with
      | error error => simp [hresult, Except.toOption] at hnext
      | ok registered => simpa [hresult, Except.toOption] using hnext
    obtain ⟨d, ancestors, hd, -, rfl, rfl⟩ := register_cases hregister
    have hsaid : (r :: rest).map Registration.described =
        some (g.derive d ancestors).described :: rest.map Registration.described :=
      congrArg (· :: rest.map Registration.described) (described_of_draft hd)
    rw [ih h, hsaid, entities_link, List.map_append, List.map_map, List.append_assoc]
    rfl

section

variable {g : Graph} {e : Entity}

/-- An entity stores the names that are so related to it, if it does of those that are registered and
nothing else is related. -/
theorem Registered.mem_stored_iff (hg : g.Registered) (he : e ∈ g.entities) {stored : List String}
    {related : String → Prop} (hstored : ∀ name ∈ stored, name ∈ e.relatives)
    (hrelated : ∀ name, related name → name ∈ g.names)
    (h : ∀ f ∈ g.entities, f.name ∈ stored ↔ related f.name) (name : String) :
    name ∈ stored ↔ related name := by
  constructor
  · intro hname
    obtain ⟨f, hf, rfl⟩ :=
      mem_names.mp (hg.consistent.relatives_mem e he name (hstored name hname))
    exact (h f hf).mp hname
  · intro hname
    obtain ⟨f, hf, rfl⟩ := mem_names.mp (hrelated name hname)
    exact (h f hf).mpr hname

/-- The stored ancestors are what an entity reaches by parent links. -/
theorem Registered.mem_ancestors_iff (hg : g.Registered) (he : e ∈ g.entities) (name : String) :
    name ∈ e.ancestors ↔ g.Above e.name name :=
  hg.mem_stored_iff he (fun name hname => by simp [Entity.relatives, hname])
    (fun _ => hg.consistent.above_mem) (hg.consistent.mem_ancestors e he) name

/-- The stored children are what links to an entity. -/
theorem Registered.mem_children_iff (hg : g.Registered) (he : e ∈ g.entities) (name : String) :
    name ∈ e.children ↔ Link g.parentsOf name e.name := by
  refine hg.mem_stored_iff he (fun name hname => by simp [Entity.relatives, hname])
    (fun _ hlink => mem_names_of_above (.single hlink)) (fun f hf => ?_) name
  rw [hg.consistent.mem_children e he f hf, Link, hg.parentsOf_name hf]

/-- The stored descendants are what reaches an entity by parent links. -/
theorem Registered.mem_descendants_iff (hg : g.Registered) (he : e ∈ g.entities) (name : String) :
    name ∈ e.descendants ↔ g.Above name e.name := by
  refine hg.mem_stored_iff he (fun name hname => by simp [Entity.relatives, hname])
    (fun _ => mem_names_of_above) (fun f hf => ?_) name
  rw [hg.consistent.mem_descendants e he f hf, hg.consistent.mem_ancestors f hf e he]

/-- The stored owners are the contexts that gate an entity. -/
theorem Registered.mem_owners_iff (hg : g.Registered) (he : e ∈ g.entities) (name : String) :
    name ∈ e.owners ↔ g.GatedBy e.name name :=
  hg.mem_stored_iff he (fun name hname => by simp [Entity.relatives, hname])
    (fun _ hgated => hg.consistent.above_mem (GatedBy.above hgated)) (hg.owned.mem_owners e he) name

/-- The stored controllers are what an entity gates. -/
theorem Registered.mem_controllers_iff (hg : g.Registered) (he : e ∈ g.entities) (name : String) :
    name ∈ e.controllers ↔ g.GatedBy name e.name := by
  refine hg.mem_stored_iff he (fun name hname => by simp [Entity.relatives, hname])
    (fun _ hgated => mem_names_of_above (GatedBy.above hgated)) (fun f hf => ?_) name
  rw [hg.owned.mem_controllers f hf e he, hg.owned.mem_owners f hf e he]

/-- No entity stores the same controller twice. -/
theorem Registered.nodup_controllers {g : Graph} (hg : g.Registered) :
    ∀ e ∈ g.entities, e.controllers.Nodup := by
  induction hg with
  | empty => exact fun _ he => absurd he List.not_mem_nil
  | register hg h ih =>
    obtain ⟨d, ancestors, hd, -, rfl, rfl⟩ := register_cases h
    refine forall_mem_link.mpr ⟨fun e he => ?_, List.nodup_nil⟩
    change (if _ then e.controllers ++ [_] else e.controllers).Nodup
    split
    · have hfresh := (hg.consistent.notMem_owners_of_fresh
        ((draft_ok hd).derive_fresh ancestors) he).2
      rw [← List.concat_eq_append, List.nodup_concat]
      exact ⟨hfresh, ih e he⟩
    · exact ih e he

end

/-- Two graphs made by registration in which the same names stand for entities of which the same was
said. -/
structure SameSaid (g g' : Graph) : Prop where
  registered : g.Registered
  registered' : g'.Registered
  described : ∀ name, (g.find? name).map Entity.described = (g'.find? name).map Entity.described

/-- Graphs made by registration in which the same was said, in whatever order, say the same of every
name. -/
theorem sameSaid_of_perm {g g' : Graph} (hg : g.Registered) (hg' : g'.Registered)
    (h : (g.entities.map Entity.described).Perm (g'.entities.map Entity.described)) :
    g.SameSaid g' where
  registered := hg
  registered' := hg'
  described name := by
    have hfind (g : Graph) : (g.find? name).map Entity.described =
        (g.entities.map Entity.described).find? fun d => d.label.text = name := by
      rw [List.find?_map]
      rfl
    have hnames : ((g.entities.map Entity.described).map fun d => d.label.text).Nodup := by
      rw [List.map_map]
      exact hg.wellNamed.names_nodup
    rw [hfind, hfind, find?_eq_of_perm h hnames]

namespace SameSaid

variable {g g' : Graph}

theorem symm (h : g.SameSaid g') : g'.SameSaid g :=
  ⟨h.registered', h.registered, fun name => (h.described name).symm⟩

/-- Whatever was said of a name is read off alike. -/
theorem map_eq {α : Type} (h : g.SameSaid g') (read : Entity → α) (said : Draft → α)
    (hread : read = said ∘ Entity.described) (name : String) :
    (g.find? name).map read = (g'.find? name).map read := by
  rw [hread, ← Option.map_map, h.described, Option.map_map]

theorem parentsOf_eq (h : g.SameSaid g') : g.parentsOf = g'.parentsOf := by
  funext name
  rw [parentsOf, h.map_eq Entity.parents Draft.parents rfl, ← parentsOf]

theorem rolesOf_eq (h : g.SameSaid g') : g.rolesOf = g'.rolesOf := by
  funext name
  rw [rolesOf, h.map_eq Entity.roles (fun d => d.roleLabels.map Name.text) rfl, ← rolesOf]

theorem labelOf_eq (h : g.SameSaid g') : g.labelOf = g'.labelOf := by
  funext name
  rw [labelOf, h.map_eq Entity.label Draft.label rfl, ← labelOf]

theorem hasContext_eq (h : g.SameSaid g') : g.hasContext = g'.hasContext := by
  have hany (g : Graph) (name : String) :
      g.hasContext name = ((g.find? name).map Entity.isContext).getD false := by
    rw [hasContext]
    cases g.find? name <;> rfl
  funext name
  rw [hany, hany, h.map_eq Entity.isContext (fun d => decide (d.kind = .context)) rfl]

theorem above_iff (h : g.SameSaid g') {name other : String} :
    g.Above name other ↔ g'.Above name other := by
  rw [Above, Above, h.parentsOf_eq]

theorem gatedBy_iff (h : g.SameSaid g') {name gate : String} :
    g.GatedBy name gate ↔ g'.GatedBy name gate := by
  have hclimbs : g.Climbs = g'.Climbs := by
    funext child parent
    rw [Climbs, Climbs, h.hasContext_eq, h.parentsOf_eq]
  rw [GatedBy, GatedBy, hclimbs, h.hasContext_eq, h.parentsOf_eq]

/-- A registered name is registered in both, for entities of which the same was said. -/
theorem found (h : g.SameSaid g') {name : String} {e : Entity} (hfind : g.find? name = some e) :
    ∃ e', g'.find? name = some e' ∧ e.described = e'.described := by
  have hdescribed := h.described name
  rw [hfind, Option.map_some] at hdescribed
  obtain ⟨e', hfind', hsame⟩ := Option.map_eq_some_iff.mp hdescribed.symm
  exact ⟨e', hfind', hsame.symm⟩

theorem not_found (h : g.SameSaid g') {name : String} (hfind : g.find? name = none) :
    g'.find? name = none := by
  have hdescribed := h.described name
  rw [hfind, Option.map_none] at hdescribed
  exact Option.map_eq_none_iff.mp hdescribed.symm

/-- Levels follow from those of the parents, up to the entities that have none. -/
theorem levelOf_eq (h : g.SameSaid g') : g.levelOf = g'.levelOf := by
  funext name
  induction h.registered.ends name with
  | intro name _ ih =>
    cases hfind : g.find? name with
    | none => rw [levelOf, levelOf, hfind, h.not_found hfind]
    | some e =>
      obtain ⟨e', hfind', hsame⟩ := h.found hfind
      have hparents : e.parents = e'.parents := congrArg Draft.parents hsame
      have hlevels : e.parents.map g.levelOf = e.parents.map g'.levelOf := by
        refine List.map_congr_left fun parent hparent => ih parent ?_
        simpa [Link, parentsOf, hfind] using hparent
      rw [levelOf_of_find? hfind, levelOf_of_find? hfind',
        (h.registered.derived e (List.mem_of_find?_eq_some hfind)).level,
        (h.registered'.derived e' (List.mem_of_find?_eq_some hfind')).level, hlevels, hparents]

/-- Required ancestors follow from those of the parents, up to the entities that have none. -/
theorem mem_requiredOf_iff (h : g.SameSaid g') (name other : String) :
    other ∈ g.requiredOf name ↔ other ∈ g'.requiredOf name := by
  induction h.registered.ends name with
  | intro name _ ih =>
    cases hfind : g.find? name with
    | none => rw [requiredOf, requiredOf, hfind, h.not_found hfind]
    | some e =>
      obtain ⟨e', hfind', hsame⟩ := h.found hfind
      have he := List.mem_of_find?_eq_some hfind
      have he' := List.mem_of_find?_eq_some hfind'
      have hname : e.name = e'.name := congrArg (fun d => d.label.text) hsame
      have hparents : e.parents = e'.parents := congrArg Draft.parents hsame
      rw [requiredOf_of_find? hfind, requiredOf_of_find? hfind',
        (h.registered.derived e he).mem_required, (h.registered'.derived e' he').mem_required,
        h.registered.mem_ancestors_iff he, h.registered'.mem_ancestors_iff he', h.above_iff, hname,
        hparents]
      refine and_congr_right fun _ => forall₂_congr fun parent hparent => ?_
      rw [ih parent (by simpa [Link, parentsOf, hfind, hparents] using hparent)]

end SameSaid

end Graph

/-- Two entities that were said the same of and are alike in every relation: at the same level, with the
same names in each of the relations, and with the same ancestors in the same order. -/
structure Entity.Counterpart (e e' : Entity) : Prop where
  described : e.described = e'.described
  level : e.level = e'.level
  nearestFirst : e.nearestFirst = e'.nearestFirst
  children : ∀ name, name ∈ e.children ↔ name ∈ e'.children
  ancestors : ∀ name, name ∈ e.ancestors ↔ name ∈ e'.ancestors
  descendants : ∀ name, name ∈ e.descendants ↔ name ∈ e'.descendants
  required : ∀ name, name ∈ e.required ↔ name ∈ e'.required
  owners : ∀ name, name ∈ e.owners ↔ name ∈ e'.owners
  controllers : ∀ name, name ∈ e.controllers ↔ name ∈ e'.controllers

namespace Graph.SameSaid

variable {g g' : Graph}

/-- What is registered under a name does not depend on the order of registrations. -/
theorem counterpart (h : g.SameSaid g') {name : String} {e e' : Entity}
    (hfind : g.find? name = some e) (hfind' : g'.find? name = some e') : e.Counterpart e' := by
  have he := List.mem_of_find?_eq_some hfind
  have he' := List.mem_of_find?_eq_some hfind'
  have hname : e.name = name := name_of_find? hfind
  have hname' : e'.name = name := name_of_find? hfind'
  have hancestors (other : String) : other ∈ e.ancestors ↔ other ∈ e'.ancestors := by
    rw [h.registered.mem_ancestors_iff he, h.registered'.mem_ancestors_iff he', h.above_iff, hname,
      hname']
  refine ⟨?_, ?_, ?_, fun other => ?_, hancestors, fun other => ?_, fun other => ?_,
    fun other => ?_, fun other => ?_⟩
  · have hdescribed := h.described name
    rw [hfind, hfind'] at hdescribed
    exact Option.some.inj hdescribed
  · rw [← levelOf_of_find? hfind, ← levelOf_of_find? hfind', h.levelOf_eq]
  · have hnearer : g.Nearer = g'.Nearer := by
      funext a b
      rw [Nearer, Nearer, h.levelOf_eq]
    have hlisted := h.registered.nearestOf_eq he (h.registered'.ranked e' he').nodup
      (fun other => ((h.registered'.related e' he').mem_nearestFirst other).trans
        (hancestors other).symm) (hnearer ▸ (h.registered'.derived e' he').sorted)
    rw [hname, nearestOf, hfind] at hlisted
    exact hlisted
  · rw [h.registered.mem_children_iff he, h.registered'.mem_children_iff he', h.parentsOf_eq, hname,
      hname']
  · rw [h.registered.mem_descendants_iff he, h.registered'.mem_descendants_iff he', h.above_iff,
      hname, hname']
  · rw [← requiredOf_of_find? hfind, ← requiredOf_of_find? hfind', h.mem_requiredOf_iff]
  · rw [h.registered.mem_owners_iff he, h.registered'.mem_owners_iff he', h.gatedBy_iff, hname,
      hname']
  · rw [h.registered.mem_controllers_iff he, h.registered'.mem_controllers_iff he', h.gatedBy_iff,
      hname, hname']

/-- The same names are registered, for entities that are alike. -/
theorem rel_find? (h : g.SameSaid g') (name : String) :
    Option.Rel Entity.Counterpart (g.find? name) (g'.find? name) := by
  cases hfind : g.find? name with
  | none => rw [h.not_found hfind]; exact .none
  | some e =>
    obtain ⟨e', hfind', -⟩ := h.found hfind
    rw [hfind']
    exact .some (h.counterpart hfind hfind')

/-- The ancestors of a name are listed in the same order. -/
theorem nearestOf_eq (h : g.SameSaid g') : g.nearestOf = g'.nearestOf := by
  funext name
  cases hfind : g.find? name with
  | none => rw [nearestOf, nearestOf, hfind, h.not_found hfind]
  | some e =>
    obtain ⟨e', hfind', -⟩ := h.found hfind
    rw [nearestOf, nearestOf, hfind, hfind', Option.map_some, Option.map_some,
      (h.counterpart hfind hfind').nearestFirst]

end Graph.SameSaid

end AccessMatrix
