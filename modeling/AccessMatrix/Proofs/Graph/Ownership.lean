import AccessMatrix.Proofs.Graph.Relations

/-!
# Ownership

A new entity asks its parents which contexts gate it. A context answers with itself and notes the
new entity; any other entity passes the question on to its own parents. So the owners of an entity
are the contexts that some way up meets first: a context ends the way that it stands on, and no
other. The contexts keep the same relation from above, as the entities that they gate.
-/

namespace AccessMatrix.Graph

open Relation (ReflTransGen TransGen)

/-- Whether a context is registered under a name. -/
def hasContext (g : Graph) (name : String) : Bool := (g.find? name).any Entity.isContext

/-- One parent link up from an entity that is no context. -/
def Climbs (g : Graph) (child parent : String) : Prop :=
  g.hasContext child = false ∧ Link g.parentsOf child parent

/-- A context is reached by one parent link or more, and no entity in between is a context. -/
def GatedBy (g : Graph) (name gate : String) : Prop :=
  g.hasContext gate = true ∧
    ∃ parent, Link g.parentsOf name parent ∧ ReflTransGen g.Climbs parent gate

theorem hasContext_name {g : Graph} (h : g.names.Nodup) {e : Entity} (he : e ∈ g.entities) :
    g.hasContext e.name = e.isContext := by
  rw [hasContext, (find?_eq_some_iff h).mpr ⟨he, rfl⟩, Option.any_some]

/-- A context that gates a name stands above it. -/
theorem GatedBy.above {g : Graph} {name gate : String} (h : g.GatedBy name gate) :
    g.Above name gate := by
  obtain ⟨-, parent, hlink, hclimb⟩ := h
  have hlinks : g.Climbs ≤ Link g.parentsOf := fun _ _ hstep => hstep.2
  exact TransGen.head' hlink (ReflTransGen.mono hlinks _ _ hclimb)

/-- The owners that a name has come over its parents: a parent that is a context is one itself, and
any other parent hands on its own. -/
theorem gatedBy_iff {g : Graph} {name gate : String} :
    g.GatedBy name gate ↔
      ∃ parent, Link g.parentsOf name parent ∧
        if g.hasContext parent then parent = gate else g.GatedBy parent gate := by
  constructor
  · intro h
    obtain ⟨hgate, parent, hlink, hclimb⟩ := h
    refine ⟨parent, hlink, ?_⟩
    rcases ReflTransGen.cases_head hclimb with rfl | ⟨next, ⟨hparent, hnext⟩, hclimb⟩
    · rw [if_pos hgate]
    · rw [hparent]
      exact ⟨hgate, next, hnext, hclimb⟩
  · intro h
    obtain ⟨parent, hlink, h⟩ := h
    split at h
    · rename_i hparent
      subst h
      exact ⟨hparent, parent, hlink, .refl⟩
    · rename_i hparent
      obtain ⟨hgate, next, hnext, hclimb⟩ := h
      exact ⟨hgate, parent, hlink, hclimb.head ⟨by simpa using hparent, hnext⟩⟩

/-- A context gates its branch alone; what gates another branch is found above its parents. -/
theorem gatesWithin_succ (g : Graph) (depth : Nat) (name : String) :
    g.gatesWithin (depth + 1) name =
      if g.hasContext name then [name] else (g.parentsOf name).flatMap (g.gatesWithin depth) := by
  rw [gatesWithin, hasContext, parentsOf]
  cases hfind : g.find? name with
  | none => rfl
  | some e =>
    have hname : e.name = name := name_of_find? hfind
    simp only [Option.any_some, Option.map_some, Option.getD_some, hname]

/-- What is found to gate a branch is a context, and the way to it climbs over no other. -/
theorem climb_of_mem_gatesWithin {g : Graph} {depth : Nat} {name gate : String}
    (h : gate ∈ g.gatesWithin depth name) :
    g.hasContext gate = true ∧ ReflTransGen g.Climbs name gate := by
  induction depth generalizing name with
  | zero => exact absurd h List.not_mem_nil
  | succ depth ih =>
    rw [gatesWithin_succ] at h
    split at h
    · rename_i hcontext
      obtain rfl := List.mem_singleton.mp h
      exact ⟨hcontext, .refl⟩
    · rename_i hcontext
      obtain ⟨parent, hparent, h⟩ := List.mem_flatMap.mp h
      obtain ⟨hgate, hclimb⟩ := ih h
      exact ⟨hgate, hclimb.head ⟨by simpa using hcontext, hparent⟩⟩

/-- A context that a branch climbs to is found by every search that is deep enough. -/
theorem mem_gatesWithin_of_climb {g : Graph} {name gate : String} (hgate : g.hasContext gate = true)
    (h : ReflTransGen g.Climbs name gate) :
    ∃ least, ∀ depth, least ≤ depth → gate ∈ g.gatesWithin depth name := by
  induction h using ReflTransGen.head_induction_on with
  | refl =>
    refine ⟨1, fun depth hdepth => ?_⟩
    obtain ⟨depth, rfl⟩ := Nat.exists_eq_add_of_le' hdepth
    rw [gatesWithin_succ, if_pos hgate]
    exact List.mem_singleton_self gate
  | head hstep _ ih =>
    obtain ⟨hcontext, hlink⟩ := hstep
    obtain ⟨least, hleast⟩ := ih
    refine ⟨least + 1, fun depth hdepth => ?_⟩
    obtain ⟨depth, rfl⟩ := Nat.exists_eq_add_of_le' (Nat.le_of_add_left_le hdepth)
    rw [gatesWithin_succ, hcontext]
    exact List.mem_flatMap.mpr ⟨_, hlink, hleast depth (Nat.le_of_succ_le_succ hdepth)⟩

/-- Where the chains above the parents end, the contexts that gate a new entity are those that its
parents climb to. -/
theorem mem_gates_iff {g : Graph} {parents : List String}
    (hends : ∀ parent ∈ parents, Ends g.parentsOf parent) {gate : String} :
    gate ∈ g.gates parents ↔
      g.hasContext gate = true ∧ ∃ parent ∈ parents, ReflTransGen g.Climbs parent gate := by
  constructor
  · intro h
    obtain ⟨parent, hparent, h⟩ := List.mem_flatMap.mp (List.mem_eraseDups.mp h)
    obtain ⟨hgate, hclimb⟩ := climb_of_mem_gatesWithin h
    exact ⟨hgate, parent, hparent, hclimb⟩
  · intro h
    obtain ⟨hgate, parent, hparent, hclimb⟩ := h
    obtain ⟨least, hleast⟩ := mem_gatesWithin_of_climb hgate hclimb
    rw [← gates_stable hends (Nat.le_max_right least g.size)]
    exact List.mem_eraseDups.mpr
      (List.mem_flatMap.mpr ⟨parent, hparent, hleast _ (Nat.le_max_left least g.size)⟩)

/-- What entities store as owners and controllers agrees with their parent links. -/
structure Owned (g : Graph) : Prop where
  mem_owners : ∀ e ∈ g.entities, ∀ c ∈ g.entities, c.name ∈ e.owners ↔ g.GatedBy e.name c.name
  mem_controllers : ∀ e ∈ g.entities, ∀ c ∈ g.entities, e.name ∈ c.controllers ↔ c.name ∈ e.owners

/-- Linking a new entity makes no other name that of a context. -/
theorem hasContext_link {g : Graph} {new : Entity} {name : String} (hname : name ≠ new.name) :
    (g.link new).hasContext name = g.hasContext name := by
  rw [hasContext, find?_link, if_neg (Ne.symm hname), Option.or_none, hasContext]
  cases g.find? name <;> rfl

namespace Consistent

variable {g : Graph}

/-- What a registered name climbs to does not change when an entity is linked. -/
theorem climbs_link_iff (hg : g.Consistent) {new : Entity} (hfresh : new.name ∉ g.names)
    {name other : String} (hname : name ∈ g.names) :
    ReflTransGen (g.link new).Climbs name other ↔ ReflTransGen g.Climbs name other := by
  have hsame (known : String) (hknown : known ∈ g.names) (parent : String) :
      (g.link new).Climbs known parent ↔ g.Climbs known parent := by
    have hne : known ≠ new.name := fun heq => hfresh (heq ▸ hknown)
    rw [Climbs, Climbs, hasContext_link hne, Link, Link, parentsOf_link hfresh, if_neg hne]
  simp only [Relation.reflTransGen_iff_eq_or_transGen]
  refine or_congr_right ⟨fun h => ?_, fun h => ?_⟩
  · refine (transGen_of_agree (motive := (· ∈ g.names)) (fun known hknown parent hstep => ?_)
      hname h).1
    have hstep := (hsame known hknown parent).mp hstep
    exact ⟨hstep, hg.parent_mem hstep.2⟩
  · refine (transGen_of_agree (motive := (· ∈ g.names)) (fun known hknown parent hstep => ?_)
      hname h).1
    exact ⟨(hsame known hknown parent).mpr hstep, hg.parent_mem hstep.2⟩

/-- The contexts that gate a registered name do not change when an entity is linked. -/
theorem gatedBy_link_iff (hg : g.Consistent) {new : Entity} (hfresh : new.name ∉ g.names)
    {name gate : String} (hname : name ∈ g.names) (hgate : gate ∈ g.names) :
    (g.link new).GatedBy name gate ↔ g.GatedBy name gate := by
  have hnameNe : name ≠ new.name := fun heq => hfresh (heq ▸ hname)
  have hgateNe : gate ≠ new.name := fun heq => hfresh (heq ▸ hgate)
  have hlink (parent : String) :
      Link (g.link new).parentsOf name parent ↔ Link g.parentsOf name parent := by
    rw [Link, Link, parentsOf_link hfresh, if_neg hnameNe]
  rw [GatedBy, GatedBy, hasContext_link hgateNe]
  refine and_congr_right fun _ => exists_congr fun parent => ?_
  rw [hlink]
  exact and_congr_right fun hparent => hg.climbs_link_iff hfresh (hg.parent_mem hparent)

section

variable {d : Draft} {ancestors : List String}

/-- The owners of a new entity are the contexts that gate it when it is linked. -/
theorem mem_owners_derive (hg : g.Consistent) (hd : g.Drafted d)
    (hclosure : g.closure d.parents = .ok ancestors) {gate : String} (hgate : gate ∈ g.names) :
    gate ∈ (g.derive d ancestors).owners ↔
      (g.link (g.derive d ancestors)).GatedBy (g.derive d ancestors).name gate := by
  have hfresh := hd.derive_fresh ancestors
  have hlink (parent : String) :
      Link (g.link (g.derive d ancestors)).parentsOf (g.derive d ancestors).name parent ↔
        parent ∈ d.parents := by
    rw [Link, parentsOf_link hfresh, if_pos rfl]
    rfl
  change gate ∈ g.gates d.parents ↔ _
  have hgateNe : gate ≠ (g.derive d ancestors).name := fun heq => hfresh (heq ▸ hgate)
  rw [mem_gates_iff (ends_of_closure hclosure), GatedBy, hasContext_link hgateNe]
  refine and_congr_right fun _ => exists_congr fun parent => ?_
  rw [hlink]
  exact and_congr_right fun hparent => (hg.climbs_link_iff hfresh (hd.parents_mem _ hparent)).symm

/-- Nothing has a new entity above it. -/
theorem not_above_derive (hg : g.Consistent) (hd : g.Drafted d)
    (hclosure : g.closure d.parents = .ok ancestors) (name : String) :
    ¬ (g.link (g.derive d ancestors)).Above name (g.derive d ancestors).name := by
  intro habove
  have hfresh := hd.derive_fresh ancestors
  have hname := mem_names_of_above habove
  rw [names_link, List.mem_append, List.mem_singleton] at hname
  rcases hname with hname | rfl
  · exact hfresh (hg.above_mem ((hg.above_link_iff hfresh hname).mp habove))
  · exact hg.acyclic_link hd hclosure _ habove

/-- A name that is not registered is stored neither as an owner nor as a controller. -/
theorem notMem_owners_of_fresh (hg : g.Consistent) {new : String} (hfresh : new ∉ g.names)
    {e : Entity} (he : e ∈ g.entities) : new ∉ e.owners ∧ new ∉ e.controllers := by
  have hrelatives : new ∉ e.relatives := fun hnew => hfresh (hg.relatives_mem e he new hnew)
  simp only [Entity.relatives, List.mem_append, not_or] at hrelatives
  exact ⟨hrelatives.1.1.2, hrelatives.1.2⟩

/-- Linking a new entity keeps owners and controllers in agreement with the parent links. -/
theorem owned_link (hg : g.Consistent) (howned : g.Owned) (hd : g.Drafted d)
    (hclosure : g.closure d.parents = .ok ancestors) : (g.link (g.derive d ancestors)).Owned := by
  have hfresh := hd.derive_fresh ancestors
  have hnone (name : String) :
      ¬ (g.link (g.derive d ancestors)).GatedBy name (g.derive d ancestors).name :=
    fun hgated => hg.not_above_derive hd hclosure name hgated.above
  have hself : (g.derive d ancestors).name ∉ (g.derive d ancestors).owners :=
    fun hself => hfresh (gates_mem _ hself)
  constructor
  · refine forall_pair_link (fun e he c hc => ?_) (fun e he => ?_) (fun c hc => ?_) ?_
    · rw [name_told, name_told,
        hg.gatedBy_link_iff hfresh (List.mem_map_of_mem he) (List.mem_map_of_mem hc)]
      exact howned.mem_owners e he c hc
    · exact iff_of_false (hg.notMem_owners_of_fresh hfresh he).1 (hnone _)
    · have hname : c.name ∈ g.names := List.mem_map_of_mem hc
      exact hg.mem_owners_derive hd hclosure hname
    · exact iff_of_false hself (hnone _)
  · refine forall_pair_link (fun e he c hc => ?_) (fun e he => ?_) (fun c hc => ?_) ?_
    · rw [mem_controllers_told, or_iff_left fun hnew => name_ne_of_fresh hfresh he hnew.2]
      exact howned.mem_controllers e he c hc
    · exact iff_of_false List.not_mem_nil (hg.notMem_owners_of_fresh hfresh he).1
    · rw [mem_controllers_told, or_iff_right (hg.notMem_owners_of_fresh hfresh hc).2]
      exact and_iff_left rfl
    · exact iff_of_false List.not_mem_nil hself

end

end Consistent

/-- In a graph made by registration, owners and controllers agree with the parent links. -/
theorem Registered.owned {g : Graph} (h : g.Registered) : g.Owned := by
  induction h with
  | empty => exact ⟨fun _ he => absurd he List.not_mem_nil, fun _ he => absurd he List.not_mem_nil⟩
  | register hg h ih =>
    obtain ⟨d, ancestors, hd, hclosure, rfl, rfl⟩ := register_cases h
    exact hg.consistent.owned_link ih (draft_ok hd) hclosure

/-- In a graph made by registration, only contexts gate anything. -/
theorem Registered.controllers_of_not_context {g : Graph} (h : g.Registered) {c : Entity}
    (hc : c ∈ g.entities) (hcontext : c.isContext = false) : c.controllers = [] := by
  refine List.eq_nil_iff_forall_not_mem.mpr fun name hname => ?_
  have hregistered : name ∈ g.names :=
    h.consistent.relatives_mem c hc name (by simp [Entity.relatives, hname])
  obtain ⟨e, he, rfl⟩ := mem_names.mp hregistered
  have hgated := (h.owned.mem_owners e he c hc).mp ((h.owned.mem_controllers e he c hc).mp hname)
  rw [← hasContext_name h.consistent.names_nodup hc, hgated.1] at hcontext
  contradiction

end AccessMatrix.Graph
