import AccessMatrix.Proofs.Evaluation.RegistrationOrder
import AccessMatrix.Proofs.Policy.Provenance
import AccessMatrix.Proofs.Session.Growth

/-!
# Policies of a growing graph

When entities are registered, what was compiled before is compiled again. A round that names registered
entities resolves to the same slots, because the roles, the kinds and the ancestors of these entities
stay as they are; and the slots over them are those that they were, because what a registration adds to
descendants is a new name. The slots that are added are of new entities and hold nothing.
-/

namespace AccessMatrix

namespace Graph

/-- What is read of an entity and is not told with a new one. -/
def KeptByLink {α : Type} (read : Entity → α) : Prop := ∀ g new e, read (told g new e) = read e

/-- Where entities list registered names only by their nearness. -/
def ListsRegistered (g : Graph) : Prop := ∀ e ∈ g.entities, ∀ name ∈ e.nearestFirst, name ∈ g.names

/-- Both entities of a slot are registered. -/
def Knows (g : Graph) (slot : Policy.Slot) : Prop := slot.context ∈ g.names ∧ slot.subject ∈ g.names

instance (g : Graph) (slot : Policy.Slot) : Decidable (g.Knows slot) :=
  inferInstanceAs (Decidable (_ ∧ _))

/-- What linking keeps is read of a registered name as before. -/
theorem map_find?_link {g : Graph} {new : Entity} (hfresh : new.name ∉ g.names) {α : Type}
    {read : Entity → α} (hread : KeptByLink read) {name : String} (hname : name ∈ g.names) :
    ((g.link new).find? name).map read = (g.find? name).map read := by
  have hne : new.name ≠ name := fun heq => hfresh (heq ▸ hname)
  rw [find?_link, if_neg hne, Option.or_none, Option.map_map]
  exact Option.map_congr fun e _ => hread g new e

theorem ListsRegistered.mem_names {g : Graph} (h : g.ListsRegistered) {name other : String}
    (hother : other ∈ g.nearestOf name) : other ∈ g.names := by
  rw [nearestOf] at hother
  cases hfind : g.find? name with
  | none => simp [hfind] at hother
  | some e =>
    rw [hfind] at hother
    exact h e (List.mem_of_find?_eq_some hfind) other hother

/-- A registration lists registered names by their nearness. -/
theorem ListsRegistered.register {g g' : Graph} (h : g.ListsRegistered) {r : Registration}
    {new : Entity} (hregister : g.register r = .ok (g', new)) : g'.ListsRegistered := by
  obtain ⟨d, ancestors, -, -, rfl, rfl⟩ := register_cases hregister
  have hlater {name : String} (hname : name ∈ g.names) :
      name ∈ (g.link (g.derive d ancestors)).names := names_link g _ ▸ List.mem_append_left _ hname
  refine forall_mem_link.mpr ⟨fun e he name hname => hlater (h e he name hname), fun name hname => ?_⟩
  have hlisted := (nearestFirst_derive_perm g d ancestors).mem_iff.mp hname
  exact hlater (of_decide_eq_true (List.mem_filter.mp hlisted).2)

namespace GrowsTo

variable {g later : Graph}

/-- What linking keeps is read of a name that was registered as before. -/
theorem map_find? (h : g.GrowsTo later) {α : Type} {read : Entity → α} (hread : KeptByLink read)
    {name : String} (hname : name ∈ g.names) :
    (later.find? name).map read = (g.find? name).map read := by
  induction h with
  | refl => rfl
  | register hgrown hregister ih =>
    obtain ⟨d, ancestors, hd, -, rfl, rfl⟩ := register_cases hregister
    have hfresh := (draft_ok hd).derive_fresh ancestors
    rw [map_find?_link hfresh hread (hgrown.mem_names hname), ih]

theorem rolesOf_eq (h : g.GrowsTo later) {name : String} (hname : name ∈ g.names) :
    later.rolesOf name = g.rolesOf name := by
  have hread : KeptByLink Entity.roles := fun _ _ _ => rfl
  rw [rolesOf, h.map_find? hread hname, rolesOf]

theorem nearestOf_eq (h : g.GrowsTo later) {name : String} (hname : name ∈ g.names) :
    later.nearestOf name = g.nearestOf name := by
  have hread : KeptByLink Entity.nearestFirst := fun _ _ _ => rfl
  rw [nearestOf, h.map_find? hread hname, nearestOf]

theorem hasContext_eq (h : g.GrowsTo later) {name : String} (hname : name ∈ g.names) :
    later.hasContext name = g.hasContext name := by
  induction h with
  | refl => rfl
  | register hgrown hregister ih =>
    obtain ⟨d, ancestors, hd, -, rfl, rfl⟩ := register_cases hregister
    have hfresh := (draft_ok hd).derive_fresh ancestors
    rw [hasContext_link fun heq => hfresh (heq ▸ hgrown.mem_names hname), ih]

end GrowsTo

end Graph

namespace Policy

open AccessMatrix.Graph (GrowsTo ListsRegistered)

variable {g later : Graph} {round : Round}

/-- A round names registered entities only. -/
structure Round.NamesRegistered (g : Graph) (round : Round) : Prop where
  explicit : ∀ entry ∈ round.explicit, g.Knows entry.1
  broad : ∀ entry ∈ round.broad, entry.1.1 ∈ g.names ∧ entry.1.2.2 ∈ g.names
  selfPolicies : ∀ entry ∈ round.selfPolicies, entry.1.1 ∈ g.names

namespace Round

/-- The round of declarations that name registered entities does so. -/
theorem namesRegistered_ofDeclarations {ds : List Declaration}
    (h : ∀ d ∈ ds, d.context.text ∈ g.names ∧ d.subject.text ∈ g.names) :
    NamesRegistered g (ofDeclarations ds) := by
  have hsaid := saidBy_ofDeclarations ds
  have hnamed {context role subject : String} {actions : Actions}
      (hd : ∃ d ∈ ds, d.Says context role subject actions) :
      context ∈ g.names ∧ subject ∈ g.names := by
    obtain ⟨d, hd, rfl, -, rfl, -⟩ := hd
    exact h d hd
  exact ⟨fun entry hentry => hnamed (hsaid.explicit entry hentry),
    fun entry hentry => hnamed (hsaid.broad entry hentry),
    fun entry hentry => (hnamed (hsaid.selfPolicies entry hentry)).1⟩

/-- A round resolves alike over graphs in which its keys cover the same slots. -/
theorem resolve_eq_of_slots {g g' : Graph}
    (hbroad : ∀ entry ∈ round.broad, broadSlots g entry.1 = broadSlots g' entry.1)
    (hself : ∀ entry ∈ round.selfPolicies, selfSlots g entry.1 = selfSlots g' entry.1) :
    round.resolve g = round.resolve g' := by
  have hfilled {κ : Type} {slotsOf slotsOf' : κ → List Slot} {table : List (κ × Actions)}
      (h : ∀ entry ∈ table, slotsOf entry.1 = slotsOf' entry.1) (defined : Table Slot Actions) :
      table.foldl (fun defined entry => fillSlots defined (slotsOf entry.1) entry.2) defined =
        table.foldl (fun defined entry => fillSlots defined (slotsOf' entry.1) entry.2) defined :=
    List.foldl_ext _ _ _ fun defined entry hentry => by rw [h entry hentry]
  rw [resolve, resolve, hfilled hbroad, hfilled hself]

/-- A round that names registered entities resolves alike when the graph has grown. -/
theorem NamesRegistered.resolve_eq (h : round.NamesRegistered g) (hlisted : g.ListsRegistered)
    (hgrown : g.GrowsTo later) : round.resolve later = round.resolve g := by
  refine resolve_eq_of_slots (fun entry hentry => ?_) fun entry hentry => ?_
  · rw [broadSlots, scopesOf, hgrown.rolesOf_eq (h.broad entry hentry).2, broadSlots, scopesOf]
  · have hlisted {name : String} (hname : name ∈ g.nearestOf entry.1.1) : name ∈ g.names :=
      hlisted.mem_names hname
    have hcontexts : (g.nearestOf entry.1.1).filter later.hasContext =
        (g.nearestOf entry.1.1).filter g.hasContext :=
      List.filter_congr fun name hname => hgrown.hasContext_eq (hlisted hname)
    rw [selfSlots_eq, selfSlots_eq, hgrown.nearestOf_eq (h.selfPolicies entry hentry), hcontexts]
    refine congrArg (· ++ _) (List.flatMap_congr fun name hname => ?_)
    rw [hgrown.rolesOf_eq (hlisted (List.mem_filter.mp hname).1)]

/-- Every slot that such a round reaches is of registered entities. -/
theorem NamesRegistered.knows_of_get?_resolve (h : round.NamesRegistered g) {slot : Slot}
    {actions : Actions} (hslot : (round.resolve g).get? slot = some actions) : g.Knows slot := by
  rcases get?_resolve_cases hslot with hexplicit | ⟨entry, hentry, hcovers, -⟩ |
    ⟨entry, hentry, hcovers, -⟩
  · exact h.explicit _ hexplicit
  · obtain ⟨hkey, -⟩ := mem_broadSlots.mp hcovers
    have hnamed := h.broad entry hentry
    rwa [hkey] at hnamed
  · have hsubject := h.selfPolicies entry hentry
    rcases mem_selfSlots.mp hcovers with ⟨hkey, -, above, habove, hname, -⟩ | rfl
    · obtain ⟨name, -, hfind⟩ := List.mem_filterMap.mp (List.mem_filter.mp habove).1
      have hcontext := Graph.mem_names.mpr ⟨above, List.mem_of_find?_eq_some hfind, rfl⟩
      exact ⟨hname ▸ hcontext, hkey ▸ hsubject⟩
    · exact ⟨hsubject, hsubject⟩

end Round

namespace Snapshot

/-- The slots of a role over a subject are of its context and the subject. -/
theorem entities_of_mem_slotsOver {context : Entity} {role : Name} {subject : Entity}
    {place : LabelledSlot} (h : place ∈ slotsOver context role subject) :
    place.slot.context = context.name ∧ place.slot.subject = subject.name := by
  obtain ⟨hcontext, -, hsubject, -⟩ := mem_slotsOver.mp (List.mem_map_of_mem h)
  exact ⟨hcontext, hsubject⟩

/-- An entity that is told of a new one leaves the slots of another context over it as they are. -/
theorem slotsOver_told (g : Graph) {new context : Entity} (hne : context.name ≠ new.name)
    (role : Name) (subject : Entity) :
    slotsOver (g.told new context) role (g.told new subject) = slotsOver context role subject := by
  have hbelow : context.name ∈ (g.told new subject).descendants ↔
      context.name ∈ subject.descendants := by
    rw [Graph.mem_descendants_told, or_iff_left fun h => hne h.2]
  exact if_congr hbelow rfl rfl

/-- Linking an entity under a new name leaves the slots of registered entities as they are. -/
theorem slots_link {new : Entity} (hfresh : new.name ∉ g.names) :
    (slots (g.link new)).filter (fun place => g.Knows place.slot) = slots g := by
  have hnew {context subject : Entity} {role : Name}
      (h : context.name ∉ g.names ∨ subject.name ∉ g.names) :
      (slotsOver context role subject).filter (fun place => g.Knows place.slot) = [] := by
    refine List.filter_eq_nil_iff.mpr fun place hplace hknown => ?_
    obtain ⟨hcontext, hsubject⟩ := entities_of_mem_slotsOver hplace
    obtain ⟨hcontextKnown, hsubjectKnown⟩ := of_decide_eq_true hknown
    exact h.elim (· (hcontext ▸ hcontextKnown)) (· (hsubject ▸ hsubjectKnown))
  have hold {context subject : Entity} {role : Name} (hcontext : context ∈ g.entities)
      (hsubject : subject ∈ g.entities) :
      (slotsOver (g.told new context) role (g.told new subject)).filter
          (fun place => g.Knows place.slot) = slotsOver context role subject := by
    have hcontextKnown := Graph.mem_names.mpr ⟨context, hcontext, rfl⟩
    have hsubjectKnown := Graph.mem_names.mpr ⟨subject, hsubject, rfl⟩
    rw [slotsOver_told g fun heq => hfresh (heq ▸ hcontextKnown), List.filter_eq_self]
    intro place hplace
    obtain ⟨hname, hsubjectName⟩ := entities_of_mem_slotsOver hplace
    exact decide_eq_true ⟨hname ▸ hcontextKnown, hsubjectName ▸ hsubjectKnown⟩
  have hcontexts : (g.link new).contexts =
      g.contexts.map (g.told new) ++ [new].filter Entity.isContext := by
    rw [Graph.contexts, Graph.entities_link, List.filter_append, List.filter_map]
    rfl
  have hsubjects (context : Entity) (role : Name) :
      ((g.link new).entities.flatMap (slotsOver context role)).filter
          (fun place => g.Knows place.slot) =
        g.entities.flatMap fun subject =>
          (slotsOver context role (g.told new subject)).filter fun place => g.Knows place.slot := by
    rw [Graph.entities_link, List.flatMap_append, List.filter_append, List.flatMap_singleton,
      hnew (.inr hfresh), List.append_nil, List.filter_flatMap, List.flatMap_map]
  have hlast : ([new].filter Entity.isContext).flatMap (fun context =>
      context.roleLabels.flatMap fun role => g.entities.flatMap fun subject =>
        (slotsOver context role (g.told new subject)).filter fun place => g.Knows place.slot) =
      [] := by
    refine List.flatMap_eq_nil_iff.mpr fun context hcontext => ?_
    obtain rfl := List.mem_singleton.mp (List.mem_filter.mp hcontext).1
    simp only [hnew (.inl hfresh), List.flatMap_eq_nil_iff, implies_true]
  simp only [slots, List.filter_flatMap, hsubjects]
  rw [hcontexts, List.flatMap_append, hlast, List.append_nil, List.flatMap_map]
  refine List.flatMap_congr fun context hcontext => List.flatMap_congr fun role _ => ?_
  exact List.flatMap_congr fun subject hsubject => hold (List.mem_filter.mp hcontext).1 hsubject

/-- The slots of registered entities stay as they are when the graph has grown. -/
theorem slots_of_growsTo (h : g.GrowsTo later) :
    (slots later).filter (fun place => g.Knows place.slot) = slots g := by
  induction h with
  | refl =>
    refine List.filter_eq_self.mpr fun place hplace => decide_eq_true ?_
    obtain ⟨context, hcontext, subject, hsubject, hname, -, hsubjectName, -⟩ :=
      parts_of_mem_slots hplace
    exact ⟨Graph.mem_names.mpr ⟨context, hcontext, congrArg Name.text hname.symm⟩,
      Graph.mem_names.mpr ⟨subject, hsubject, congrArg Name.text hsubjectName.symm⟩⟩
  | @register mid last r e hgrown hregister ih =>
    obtain ⟨d, ancestors, hd, -, rfl, rfl⟩ := Graph.register_cases hregister
    have hfresh := (Graph.draft_ok hd).derive_fresh ancestors
    rw [← ih, ← slots_link hfresh, List.filter_filter]
    refine List.filter_congr fun place _ => ?_
    have hlater : g.Knows place.slot → mid.Knows place.slot :=
      And.imp hgrown.mem_names hgrown.mem_names
    simpa using hlater

/-- What is left out of a list shows in no concatenation to which it adds nothing. -/
theorem flatMap_filter_of_nil {α β : Type} {places : List α} {known : α → Bool} {grants : α → List β}
    (h : ∀ place ∈ places, known place = false → grants place = []) :
    (places.filter known).flatMap grants = places.flatMap grants := by
  induction places with
  | nil => rfl
  | cons place rest ih =>
    obtain ⟨hplace, hrest⟩ := List.forall_mem_cons.mp h
    rw [List.filter_cons, List.flatMap_cons, ← ih hrest]
    split
    · rfl
    · rename_i hunknown
      rw [hplace (by simpa using hunknown), List.nil_append]

/-- A snapshot has the cells of an earlier one in their order, and further ones, which are of entities
that a graph does not register and grant nothing; and it has the same actions, the same declared actions
of slots and the same index. -/
structure Extends (g : Graph) (earlier later : Snapshot) : Prop where
  actions : later.actions = earlier.actions
  defined : later.defined = earlier.defined
  allowance : later.allowance = earlier.allowance
  cells : later.cells.filter (fun cell => g.Knows cell.slot) = earlier.cells
  refuses : ∀ cell ∈ later.cells, ¬ g.Knows cell.slot →
    ∀ action, cell.actions.get? action ≠ some true

/-- A slot of an entity that is not registered allows nothing. -/
theorem allows_of_not_knows (h : round.NamesRegistered g) {slot : Slot} (hslot : ¬ g.Knows slot)
    (action : String) : allows (round.resolve g) slot action = false := by
  cases hfound : (round.resolve g).get? slot with
  | none =>
    rw [allows, hfound]
    rfl
  | some actions => exact absurd (h.knows_of_get?_resolve hfound) hslot

/-- Over a graph that has grown, a round that names the entities of before compiles to a snapshot with
further cells, which grant nothing. -/
theorem extends_of_growsTo (h : round.NamesRegistered g) (hlisted : g.ListsRegistered)
    (hgrown : g.GrowsTo later) : (compile g round).Extends g (compile later round) := by
  have hdefined : round.resolve later = round.resolve g := h.resolve_eq hlisted hgrown
  have hslots := slots_of_growsTo hgrown
  refine ⟨rfl, hdefined, ?_, ?_, fun cell hcell hunknown action hgranted => ?_⟩
  · have hgrants : (slots later).flatMap (grantsOf round.actions (round.resolve g)) =
        (slots g).flatMap (grantsOf round.actions (round.resolve g)) := by
      rw [← hslots, flatMap_filter_of_nil fun place _ hplace => ?_]
      have hnone := allows_of_not_knows h (of_decide_eq_false hplace)
      simp [grantsOf, hnone]
    simp only [compile, hdefined, hgrants]
  · simp only [compile, hdefined, ← hslots, List.filter_map]
    rfl
  · obtain ⟨-, hallows⟩ := (get?_of_mem_cells hcell action).mp hgranted
    rw [hdefined, allows_of_not_knows h hunknown] at hallows
    contradiction

end Snapshot

end Policy

end AccessMatrix
