import AccessMatrix.Graph.Register
import AccessMatrix.Proofs.Distinct
import AccessMatrix.Proofs.Outcome

/-!
# Well-named graphs

Registration keeps the names of entities apart, and within every context the names of its roles. No
name is empty, and only a context has roles. What was registered keeps its label, its kind and its
roles from then on, also when parents are reassigned.
-/

namespace AccessMatrix

open Outcome

/-- An entity has a name, its roles have names and are told apart, and it has none if it is no
context. -/
structure Entity.WellNamed (e : Entity) : Prop where
  name_ne_empty : e.name ≠ ""
  roles_nodup : e.roles.Nodup
  role_ne_empty : ∀ role ∈ e.roles, role ≠ ""
  roles_of_not_context : e.isContext = false → e.roleLabels = []

/-- Two entities are known by the same label and roles. -/
structure Entity.SameNames (e other : Entity) : Prop where
  label : other.label = e.label
  kind : other.kind = e.kind
  roleLabels : other.roleLabels = e.roleLabels

theorem Entity.SameNames.name {e other : Entity} (h : e.SameNames other) : other.name = e.name := by
  rw [Entity.name, Entity.name, h.label]

theorem Entity.SameNames.roles {e other : Entity} (h : e.SameNames other) :
    other.roles = e.roles := by
  rw [Entity.roles, Entity.roles, h.roleLabels]

theorem Entity.SameNames.trans {e other last : Entity} (h : e.SameNames other)
    (h' : other.SameNames last) : e.SameNames last where
  label := h'.label.trans h.label
  kind := h'.kind.trans h.kind
  roleLabels := h'.roleLabels.trans h.roleLabels

/-- Being well named rests on the label, the kind and the roles alone. -/
theorem Entity.WellNamed.of_sameNames {e other : Entity} (h : e.WellNamed)
    (hsame : e.SameNames other) : other.WellNamed where
  name_ne_empty := hsame.name ▸ h.name_ne_empty
  roles_nodup := hsame.roles ▸ h.roles_nodup
  role_ne_empty := hsame.roles ▸ h.role_ne_empty
  roles_of_not_context hcontext := by
    rw [hsame.roleLabels]
    exact h.roles_of_not_context (by rwa [Entity.isContext, ← hsame.kind])

namespace Graph

/-- Names are registered once, for well-named entities. -/
structure WellNamed (g : Graph) : Prop where
  names_nodup : g.names.Nodup
  entity : ∀ e ∈ g.entities, e.WellNamed

/-- Everything that a graph registers is registered in a later one under the same names. -/
def Within (g later : Graph) : Prop := ∀ e ∈ g.entities, ∃ e' ∈ later.entities, e.SameNames e'

theorem Within.refl (g : Graph) : g.Within g := fun e he => ⟨e, he, rfl, rfl, rfl⟩

theorem Within.trans {g later last : Graph} (h : g.Within later) (h' : later.Within last) :
    g.Within last := by
  intro e he
  obtain ⟨e', he', hsame⟩ := h e he
  obtain ⟨e'', he'', hsame'⟩ := h' e' he'
  exact ⟨e'', he'', hsame.trans hsame'⟩

theorem empty_wellNamed : WellNamed {} := ⟨List.nodup_nil, fun _ he => absurd he List.not_mem_nil⟩

theorem mem_names {g : Graph} {name : String} : name ∈ g.names ↔ ∃ e ∈ g.entities, e.name = name :=
  List.mem_map

/-- A name is taken exactly if it is among those registered. -/
theorem has_iff_mem_names {g : Graph} {name : String} : g.has name = true ↔ name ∈ g.names := by
  simp [has, mem_names]

/-- What a name finds has that name. -/
theorem name_of_find? {g : Graph} {name : String} {e : Entity} (h : g.find? name = some e) :
    e.name = name := by
  simpa using List.find?_some h

/-- Looking up a name finds the one entity that is registered under it. -/
theorem find?_eq_some_iff {g : Graph} (h : g.names.Nodup) {name : String} {e : Entity} :
    g.find? name = some e ↔ e ∈ g.entities ∧ e.name = name := by
  constructor
  · intro hfind
    exact ⟨List.mem_of_find?_eq_some hfind, name_of_find? hfind⟩
  · intro hregistered
    obtain ⟨he, rfl⟩ := hregistered
    exact find?_eq_some_of_nodup h he

theorem find?_isSome_iff {g : Graph} {name : String} :
    (g.find? name).isSome = true ↔ name ∈ g.names := by
  simp [find?, mem_names]

theorem find?_eq_none_iff {g : Graph} {name : String} : g.find? name = none ↔ name ∉ g.names := by
  rw [← find?_isSome_iff]
  simp

/-- The roles of a context pass their check only if they have names that differ from each other and
from those before them. -/
theorem checkRoles_ok {context : Name} {seen labels : List Name} {roles : List Value}
    (h : checkRoles context seen roles = .ok labels) (hseen : (seen.map Name.text).Nodup)
    (hnamed : ∀ role ∈ seen.map Name.text, role ≠ "") :
    (labels.map Name.text).Nodup ∧ ∀ role ∈ labels.map Name.text, role ≠ "" := by
  induction roles generalizing seen with
  | nil =>
    obtain rfl : seen.reverse = labels := by simpa [checkRoles] using h
    simpa only [List.map_reverse, List.nodup_reverse, List.mem_reverse] using And.intro hseen hnamed
  | cons role rest ih =>
    simp only [checkRoles] at h
    split at h
    · contradiction
    · rename_i label hlabel
      split at h
      · contradiction
      · rename_i hfresh
        have hlabelled : label.text ≠ "" := by
          have := (Option.filter_eq_some_iff.mp hlabel).2
          simpa using this
        refine ih h (List.nodup_cons.mpr ⟨hfresh, hseen⟩) ?_
        intro role hrole
        rcases List.mem_cons.mp hrole with rfl | hrole
        · exact hlabelled
        · exact hnamed role hrole

/-- What the checks of a new entity establish: a name that is not taken, registered parents, and
roles that are named and told apart. -/
structure Drafted (g : Graph) (d : Draft) : Prop where
  named : d.label.text ≠ ""
  fresh : d.label.text ∉ g.names
  roles_nodup : (d.roleLabels.map Name.text).Nodup
  role_ne_empty : ∀ role ∈ d.roleLabels.map Name.text, role ≠ ""
  roles_of_not_context : d.kind ≠ .context → d.roleLabels = []
  parents_nodup : d.parents.Nodup
  parents_mem : ∀ parent ∈ d.parents, parent ∈ g.names

/-- What a reference is resolved to is registered. -/
theorem refersTo_mem {g : Graph} {ref : Ref} {e : Entity} (h : g.refersTo ref = some e) :
    e ∈ g.entities := by
  cases ref with
  | own name => exact List.mem_of_find?_eq_some h
  | foreign name => contradiction
  | value v =>
    obtain ⟨name, -, hfind⟩ := Option.bind_eq_some_iff.mp h
    exact List.mem_of_find?_eq_some hfind

/-- Resolved parents are registered and named once. -/
theorem resolveParents_ok {g : Graph} {name : Name} {refs : List Ref} {parents : List String}
    (h : g.resolveParents name refs = .ok parents) :
    parents.Nodup ∧ ∀ parent ∈ parents, parent ∈ g.names := by
  induction refs generalizing parents with
  | nil =>
    obtain rfl : [] = parents := by simpa [resolveParents] using h
    simp
  | cons ref rest ih =>
    simp only [resolveParents] at h
    split at h
    · contradiction
    · rename_i parent hparent
      simp only [bind_eq_ok, pure_eq_ok] at h
      obtain ⟨others, hothers, rfl⟩ := h
      obtain ⟨hnodup, hmem⟩ := ih hothers
      refine ⟨List.nodup_cons.mpr ⟨by simp, hnodup.filter _⟩, ?_⟩
      intro other hother
      rcases List.mem_cons.mp hother with rfl | hother
      · exact List.mem_map_of_mem (refersTo_mem hparent)
      · exact hmem other (List.mem_filter.mp hother).1

/-- The parts of a draft that passes its checks, each with the check that it passed. -/
theorem draft_cases {g : Graph} {r : Registration} {d : Draft} (h : g.draft r = .ok d) :
    ∃ roles refs, (r.kind = .context → r.roles.iterate = .ok roles) ∧
      (r.kind ≠ .context → roles = []) ∧ r.parents.toList = .ok refs ∧ d.kind = r.kind ∧
      r.name.asName? = some d.label ∧ g.has d.label.text = false ∧
      g.resolveParents d.label refs = .ok d.parents ∧
      checkRoles d.label [] roles = .ok d.roleLabels := by
  unfold draft at h
  extract_lets rest at h
  have hrest {roles : List Value} (h : rest roles = .ok d) :
      ∃ refs, r.parents.toList = .ok refs ∧ d.kind = r.kind ∧
        r.name.asName? = some d.label ∧ g.has d.label.text = false ∧
        g.resolveParents d.label refs = .ok d.parents ∧
        checkRoles d.label [] roles = .ok d.roleLabels := by
    simp only [rest] at h
    split at h
    · rename_i label hlabel
      obtain ⟨refs, hrefs, h⟩ := bind_eq_ok.mp h
      split at h
      · contradiction
      · rename_i hfresh
        simp only [bind_eq_ok, pure_eq_ok] at h
        obtain ⟨parents, hparents, roleLabels, hlabels, rfl⟩ := h
        exact ⟨refs, hrefs, rfl, hlabel, by simpa using hfresh, hparents, hlabels⟩
    · contradiction
  by_cases hkind : r.kind = .context
  · rw [if_pos hkind] at h
    obtain ⟨roles, hroles, h⟩ := bind_eq_ok.mp h
    obtain ⟨refs, h⟩ := hrest h
    exact ⟨roles, refs, fun _ => mapError_eq_ok.mp hroles, fun hne => absurd hkind hne, h⟩
  · rw [if_neg hkind] at h
    obtain ⟨roles, hroles, h⟩ := bind_eq_ok.mp h
    obtain ⟨refs, h⟩ := hrest h
    exact ⟨roles, refs, fun hcontext => absurd hcontext hkind,
      fun _ => (pure_eq_ok.mp hroles).symm, h⟩

/-- A draft that passes its checks has what they establish. -/
theorem draft_ok {g : Graph} {r : Registration} {d : Draft} (h : g.draft r = .ok d) :
    g.Drafted d := by
  obtain ⟨roles, refs, -, hroles, -, hkind, hlabel, hfresh, hparents, hlabels⟩ := draft_cases h
  obtain ⟨hnodup, hmem⟩ := resolveParents_ok hparents
  obtain ⟨hlabelsNodup, hlabelsNamed⟩ := checkRoles_ok hlabels List.nodup_nil (by simp)
  refine ⟨?_, ?_, hlabelsNodup, hlabelsNamed, ?_, hnodup, hmem⟩
  · simpa using (Option.filter_eq_some_iff.mp hlabel).2
  · rw [← has_iff_mem_names, hfresh]
    exact Bool.false_ne_true
  · intro hne
    rw [hroles (hkind ▸ hne)] at hlabels
    simpa [checkRoles] using hlabels

/-- A registration that succeeds checks a draft, derives its relations and links it. -/
theorem register_cases {g g' : Graph} {r : Registration} {e : Entity}
    (h : g.register r = .ok (g', e)) :
    ∃ d ancestors, g.draft r = .ok d ∧ g.closure d.parents = .ok ancestors ∧
      e = g.derive d ancestors ∧ g' = g.link e := by
  obtain ⟨d, hd, h⟩ := bind_eq_ok.mp h
  split at h
  · contradiction
  · rename_i ancestors hancestors
    obtain ⟨rfl, rfl⟩ := Prod.mk.inj (pure_eq_ok.mp h)
    exact ⟨d, ancestors, hd, hancestors, rfl, rfl⟩

/-- Linking keeps every registered entity under its names and puts the new one last. -/
theorem names_link (g : Graph) (new : Entity) : (g.link new).names = g.names ++ [new.name] := by
  simp [names, link, Entity.name, Function.comp_def]

/-- Linking an entity under a new name keeps names apart. -/
theorem nodup_names_link {g : Graph} {new : Entity} (hnodup : g.names.Nodup)
    (hfresh : new.name ∉ g.names) : (g.link new).names.Nodup := by
  rw [names_link, List.nodup_append]
  refine ⟨hnodup, List.nodup_singleton _, fun name hname other hother heq => hfresh ?_⟩
  obtain rfl := List.mem_singleton.mp hother
  exact heq ▸ hname

/-- After linking there is the new entity, and the others under their names. -/
theorem mem_link {g : Graph} {new e : Entity} (he : e ∈ (g.link new).entities) :
    (∃ old ∈ g.entities, old.SameNames e) ∨ e = new := by
  rcases List.mem_append.mp he with he | he
  · obtain ⟨old, hold, rfl⟩ := List.mem_map.mp he
    exact .inl ⟨old, hold, rfl, rfl, rfl⟩
  · exact .inr (List.mem_singleton.mp he)

theorem within_link (g : Graph) (new : Entity) : g.Within (g.link new) := fun _ he =>
  ⟨_, List.mem_append_left _ (List.mem_map_of_mem he), rfl, rfl, rfl⟩

/-- Registration keeps a graph well named. -/
theorem WellNamed.register {g g' : Graph} {r : Registration} {e : Entity} (hg : g.WellNamed)
    (h : g.register r = .ok (g', e)) : g'.WellNamed := by
  obtain ⟨d, ancestors, hd, -, rfl, rfl⟩ := register_cases h
  have hdraft := draft_ok hd
  refine ⟨nodup_names_link hg.names_nodup hdraft.fresh, fun e he => ?_⟩
  rcases mem_link he with ⟨old, hold, hsame⟩ | rfl
  · exact (hg.entity old hold).of_sameNames hsame
  · refine ⟨hdraft.named, hdraft.roles_nodup, hdraft.role_ne_empty, fun hcontext => ?_⟩
    exact hdraft.roles_of_not_context (of_decide_eq_false hcontext)

/-- Registration keeps every entity under its names. -/
theorem Within.register {g g' : Graph} {r : Registration} {e : Entity}
    (h : g.register r = .ok (g', e)) : g.Within g' := by
  obtain ⟨d, ancestors, -, -, rfl, rfl⟩ := register_cases h
  exact within_link g _

/-- Reassigning parents changes no names. -/
theorem mem_assignParents {g : Graph} {name : String} {parents : List String} {e : Entity}
    (he : e ∈ (g.assignParents name parents).entities) : ∃ old ∈ g.entities, old.SameNames e := by
  obtain ⟨old, hold, rfl⟩ := List.mem_map.mp he
  refine ⟨old, hold, ?_⟩
  split <;> exact ⟨rfl, rfl, rfl⟩

theorem within_assignParents (g : Graph) (name : String) (parents : List String) :
    g.Within (g.assignParents name parents) := by
  intro e he
  refine ⟨_, List.mem_map_of_mem he, ?_⟩
  split <;> exact ⟨rfl, rfl, rfl⟩

theorem names_assignParents (g : Graph) (name : String) (parents : List String) :
    (g.assignParents name parents).names = g.names := by
  rw [names, assignParents, List.map_map]
  refine List.map_congr_left fun e _ => ?_
  simp only [Function.comp_apply]
  split <;> rfl

/-- Reassigning parents keeps a graph well named. -/
theorem WellNamed.assignParents {g : Graph} (hg : g.WellNamed) (name : String)
    (parents : List String) : (g.assignParents name parents).WellNamed := by
  refine ⟨names_assignParents g name parents ▸ hg.names_nodup, fun e he => ?_⟩
  obtain ⟨old, hold, hsame⟩ := mem_assignParents he
  exact (hg.entity old hold).of_sameNames hsame

end Graph

end AccessMatrix
