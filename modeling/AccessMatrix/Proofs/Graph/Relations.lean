import AccessMatrix.Proofs.Graph.Gates

/-!
# The relations of a graph

Ancestors are found by going up from a new entity, descendants and children by telling the entities
above it. In a graph made by registration the two ways agree: the parent links have no cycle, what an
entity stores as its ancestors is what it reaches by them, and children and descendants are the same
relations seen from above. Each part is kept by a registration, because a new entity stands below
those that were registered before it and above none.
-/

namespace AccessMatrix

open Outcome
open Relation (ReflTransGen TransGen)

/-- Every name that an entity stores of another one. -/
def Entity.relatives (e : Entity) : List String :=
  e.parents ++ e.children ++ e.ancestors ++ e.descendants ++ e.required ++ e.owners ++
    e.controllers ++ e.nearestFirst

namespace Graph

/-- A name reaches another one by one or more parent links. -/
def Above (g : Graph) (name other : String) : Prop := TransGen (Link g.parentsOf) name other

/-- The relations of a graph agree with its parent links. -/
structure Consistent (g : Graph) : Prop where
  names_nodup : g.names.Nodup
  parents_nodup : ∀ e ∈ g.entities, e.parents.Nodup
  relatives_mem : ∀ e ∈ g.entities, ∀ name ∈ e.relatives, name ∈ g.names
  parents_first : ∀ before e after, g.entities = before ++ e :: after →
    ∀ parent ∈ e.parents, parent ∈ before.map Entity.name
  acyclic : ∀ name, ¬ g.Above name name
  mem_children : ∀ e ∈ g.entities, ∀ f ∈ g.entities, f.name ∈ e.children ↔ e.name ∈ f.parents
  mem_ancestors : ∀ e ∈ g.entities, ∀ f ∈ g.entities,
    f.name ∈ e.ancestors ↔ g.Above e.name f.name
  mem_descendants : ∀ e ∈ g.entities, ∀ f ∈ g.entities,
    f.name ∈ e.descendants ↔ e.name ∈ f.ancestors

/-- What an entity becomes when a new one is linked. -/
def told (g : Graph) (new e : Entity) : Entity :=
  { e with
    children := if e.name ∈ new.parents then e.children ++ [new.name] else e.children
    descendants :=
      if e.name ∈ g.above new.parents then e.descendants ++ [new.name] else e.descendants
    controllers := if e.name ∈ new.owners then e.controllers ++ [new.name] else e.controllers }

theorem entities_link (g : Graph) (new : Entity) :
    (g.link new).entities = g.entities.map (g.told new) ++ [new] := rfl

theorem name_told (g : Graph) (new e : Entity) : (g.told new e).name = e.name := rfl

/-- Every entity after linking is an earlier one that was told, or the new one. -/
theorem forall_mem_link {g : Graph} {new : Entity} {motive : Entity → Prop} :
    (∀ e ∈ (g.link new).entities, motive e) ↔
      (∀ e ∈ g.entities, motive (g.told new e)) ∧ motive new := by
  rw [entities_link, List.forall_mem_append, List.forall_mem_map, List.forall_mem_singleton]

/-- Any two entities after linking are earlier ones that were told, or one of them is the new one. -/
theorem forall_pair_link {g : Graph} {new : Entity} {motive : Entity → Entity → Prop}
    (hold : ∀ e ∈ g.entities, ∀ f ∈ g.entities, motive (g.told new e) (g.told new f))
    (hbelow : ∀ e ∈ g.entities, motive (g.told new e) new)
    (habove : ∀ f ∈ g.entities, motive new (g.told new f)) (hself : motive new new) :
    ∀ e ∈ (g.link new).entities, ∀ f ∈ (g.link new).entities, motive e f :=
  forall_mem_link.mpr ⟨fun e he => forall_mem_link.mpr ⟨hold e he, hbelow e he⟩,
    forall_mem_link.mpr ⟨habove, hself⟩⟩

theorem mem_noted {stored : List String} {name new : String} {known : Prop} [Decidable known] :
    name ∈ (if known then stored ++ [new] else stored) ↔ name ∈ stored ∨ known ∧ name = new := by
  split <;> simp [*]

theorem mem_children_told {g : Graph} {new e : Entity} {name : String} :
    name ∈ (g.told new e).children ↔
      name ∈ e.children ∨ e.name ∈ new.parents ∧ name = new.name := mem_noted

theorem mem_descendants_told {g : Graph} {new e : Entity} {name : String} :
    name ∈ (g.told new e).descendants ↔
      name ∈ e.descendants ∨ e.name ∈ g.above new.parents ∧ name = new.name := mem_noted

theorem mem_controllers_told {g : Graph} {new e : Entity} {name : String} :
    name ∈ (g.told new e).controllers ↔
      name ∈ e.controllers ∨ e.name ∈ new.owners ∧ name = new.name := mem_noted

/-- The new entity is found under its name, and every other one under the name that it had. -/
theorem find?_link (g : Graph) (new : Entity) (name : String) :
    (g.link new).find? name =
      ((g.find? name).map (g.told new)).or (if new.name = name then some new else none) := by
  have hsame : ((fun e : Entity => decide (e.name = name)) ∘ g.told new) =
      fun e => decide (e.name = name) := rfl
  rw [find?, entities_link, List.find?_append, List.find?_map, hsame, List.find?_singleton]
  simp only [find?, decide_eq_true_eq]

/-- Linking leaves the parents of registered entities as they are. -/
theorem parentsOf_link {g : Graph} {new : Entity} (hfresh : new.name ∉ g.names) (name : String) :
    (g.link new).parentsOf name = if name = new.name then new.parents else g.parentsOf name := by
  rw [parentsOf, find?_link]
  split
  · rename_i hname
    subst hname
    simp [find?_eq_none_iff.mpr hfresh]
  · rename_i hname
    rw [if_neg (Ne.symm hname), Option.or_none, parentsOf]
    cases g.find? name <;> rfl

/-- What reaches a name by links that agree on all names met reaches it by the other ones. -/
theorem transGen_of_agree {α : Type} {r r' : α → α → Prop} {motive : α → Prop}
    (h : ∀ a, motive a → ∀ b, r a b → r' a b ∧ motive b) {a b : α} (ha : motive a)
    (hab : TransGen r a b) : TransGen r' a b ∧ motive b := by
  induction hab with
  | single hlink =>
    obtain ⟨hlink, hb⟩ := h _ ha _ hlink
    exact ⟨.single hlink, hb⟩
  | tail _ hlink ih =>
    obtain ⟨hbefore, hmet⟩ := ih
    obtain ⟨hlink, hb⟩ := h _ hmet _ hlink
    exact ⟨hbefore.tail hlink, hb⟩

/-- Only registered names have something above them. -/
theorem mem_names_of_above {g : Graph} {name other : String} (h : g.Above name other) :
    name ∈ g.names := by
  obtain ⟨parent, hlink, -⟩ := TransGen.head'_iff.mp h
  exact mem_names_of_parents g name (List.ne_nil_of_mem hlink)

/-- The name of a new entity is not registered. -/
theorem Drafted.derive_fresh {g : Graph} {d : Draft} (hd : g.Drafted d) (ancestors : List String) :
    (g.derive d ancestors).name ∉ g.names := hd.fresh

namespace Consistent

variable {g : Graph}

theorem empty : Consistent {} where
  names_nodup := List.nodup_nil
  parents_nodup _ he := absurd he List.not_mem_nil
  relatives_mem _ he := absurd he List.not_mem_nil
  parents_first _ _ _ h := by simp at h
  acyclic _ h := absurd (mem_names_of_above h) List.not_mem_nil
  mem_children _ he := absurd he List.not_mem_nil
  mem_ancestors _ he := absurd he List.not_mem_nil
  mem_descendants _ he := absurd he List.not_mem_nil

/-- Parents are registered. -/
theorem parent_mem (hg : g.Consistent) {name parent : String} (h : Link g.parentsOf name parent) :
    parent ∈ g.names := by
  rw [Link, parentsOf] at h
  cases hfind : g.find? name with
  | none => simp [hfind] at h
  | some e =>
    refine hg.relatives_mem e (List.mem_of_find?_eq_some hfind) parent ?_
    have hparent : parent ∈ e.parents := by simpa [hfind] using h
    simp [Entity.relatives, hparent]

/-- What stands above a name is registered. -/
theorem above_mem (hg : g.Consistent) {name other : String} (h : g.Above name other) :
    other ∈ g.names := by
  obtain ⟨parent, -, hlink⟩ := TransGen.tail'_iff.mp h
  exact hg.parent_mem hlink

/-- What a registered name has above it does not change when an entity is linked. -/
theorem above_link_iff (hg : g.Consistent) {new : Entity} (hfresh : new.name ∉ g.names)
    {name other : String} (hname : name ∈ g.names) :
    (g.link new).Above name other ↔ g.Above name other := by
  have hsame (known : String) (hknown : known ∈ g.names) :
      (g.link new).parentsOf known = g.parentsOf known := by
    rw [parentsOf_link hfresh, if_neg]
    exact fun heq => hfresh (heq ▸ hknown)
  constructor
  · intro h
    refine (transGen_of_agree (motive := (· ∈ g.names)) (fun known hknown parent hlink => ?_)
      hname h).1
    rw [Link, hsame known hknown] at hlink
    exact ⟨hlink, hg.parent_mem hlink⟩
  · intro h
    refine (transGen_of_agree (motive := (· ∈ g.names)) (fun known hknown parent hlink => ?_)
      hname h).1
    rw [Link, hsame known hknown]
    exact ⟨hlink, hg.parent_mem hlink⟩

section

variable {d : Draft} {ancestors : List String}

/-- What a closure finds is its starts and what stands above them. -/
theorem mem_ancestors_iff (hclosure : g.closure d.parents = .ok ancestors) (name : String) :
    name ∈ ancestors ↔ name ∈ d.parents ∨ ∃ parent ∈ d.parents, g.Above parent name := by
  simp only [mem_closure_iff hclosure, Relation.reflTransGen_iff_eq_or_transGen]
  constructor
  · intro hreach
    obtain ⟨parent, hparent, rfl | habove⟩ := hreach
    · exact .inl hparent
    · exact .inr ⟨parent, hparent, habove⟩
  · intro hreach
    rcases hreach with hparent | ⟨parent, hparent, habove⟩
    · exact ⟨name, hparent, .inl rfl⟩
    · exact ⟨parent, hparent, .inr habove⟩

/-- The ancestors of a new entity are registered. -/
theorem ancestor_mem (hg : g.Consistent) (hd : g.Drafted d)
    (hclosure : g.closure d.parents = .ok ancestors) : ∀ name ∈ ancestors, name ∈ g.names := by
  intro name hname
  rcases (mem_ancestors_iff hclosure name).mp hname with hparent | ⟨_, -, habove⟩
  · exact hd.parents_mem name hparent
  · exact hg.above_mem habove

/-- The ancestors of a new entity are what it has above it when it is linked. -/
theorem above_derive_iff (hg : g.Consistent) (hd : g.Drafted d)
    (hclosure : g.closure d.parents = .ok ancestors) (name : String) :
    (g.link (g.derive d ancestors)).Above (g.derive d ancestors).name name ↔
      name ∈ ancestors := by
  have hfresh := hd.derive_fresh ancestors
  have hlink (parent : String) :
      Link (g.link (g.derive d ancestors)).parentsOf (g.derive d ancestors).name parent ↔
        parent ∈ d.parents := by
    rw [Link, parentsOf_link hfresh, if_pos rfl]
    rfl
  rw [Above, TransGen.head'_iff, mem_ancestors_iff hclosure]
  simp only [hlink, Relation.reflTransGen_iff_eq_or_transGen]
  constructor
  · intro hreach
    obtain ⟨parent, hparent, rfl | habove⟩ := hreach
    · exact .inl hparent
    · exact .inr ⟨parent, hparent, (hg.above_link_iff hfresh (hd.parents_mem _ hparent)).mp habove⟩
  · intro hreach
    rcases hreach with hparent | ⟨parent, hparent, habove⟩
    · exact ⟨name, hparent, .inl rfl⟩
    · exact ⟨parent, hparent, .inr ((hg.above_link_iff hfresh (hd.parents_mem _ hparent)).mpr habove)⟩

/-- The entities that are told of a new one are its ancestors. -/
theorem mem_above_iff (hg : g.Consistent) (hd : g.Drafted d)
    (hclosure : g.closure d.parents = .ok ancestors) {e : Entity} (he : e ∈ g.entities) :
    e.name ∈ g.above d.parents ↔ e.name ∈ ancestors := by
  rw [mem_ancestors_iff hclosure, above, List.mem_append, List.mem_flatMap]
  refine or_congr_right ?_
  constructor
  · intro hknown
    obtain ⟨parent, hparent, hancestor⟩ := hknown
    obtain ⟨name, hname, hfind⟩ := List.mem_filterMap.mp hparent
    obtain ⟨hparent, rfl⟩ := (find?_eq_some_iff hg.names_nodup).mp hfind
    exact ⟨parent.name, hname, (hg.mem_ancestors parent hparent e he).mp hancestor⟩
  · intro habove
    obtain ⟨name, hname, habove⟩ := habove
    obtain ⟨parent, hparent, rfl⟩ := mem_names.mp (hd.parents_mem name hname)
    have hfind : g.find? parent.name = some parent :=
      (find?_eq_some_iff hg.names_nodup).mpr ⟨hparent, rfl⟩
    exact ⟨parent, List.mem_filterMap.mpr ⟨_, hname, hfind⟩,
      (hg.mem_ancestors parent hparent e he).mpr habove⟩

/-- A new entity stores names of registered entities only. -/
theorem relatives_derive (hg : g.Consistent) (hd : g.Drafted d)
    (hclosure : g.closure d.parents = .ok ancestors) :
    ∀ name ∈ (g.derive d ancestors).relatives, name ∈ g.names := by
  have hmem := hg.ancestor_mem hd hclosure
  simp only [Entity.relatives, List.forall_mem_append]
  refine ⟨⟨⟨⟨⟨⟨⟨hd.parents_mem, ?_⟩, hmem⟩, ?_⟩, ?_⟩, gates_mem⟩, ?_⟩, ?_⟩
  · exact fun _ hname => absurd hname List.not_mem_nil
  · exact fun _ hname => absurd hname List.not_mem_nil
  · exact fun name hname => hmem name (List.mem_filter.mp hname).1
  · exact fun _ hname => absurd hname List.not_mem_nil
  · exact fun name hname => hmem name ((mem_nearestFirst_derive hmem name).mp hname)

/-- Linking stores no name in a registered entity but that of the new one. -/
theorem relatives_told {new e : Entity} :
    ∀ name ∈ (g.told new e).relatives, name ∈ e.relatives ∨ name = new.name := by
  intro name hname
  simp only [Entity.relatives, List.mem_append, mem_children_told, mem_descendants_told,
    mem_controllers_told] at hname ⊢
  change (((((((name ∈ e.parents ∨ _) ∨ name ∈ e.ancestors) ∨ _) ∨ name ∈ e.required) ∨
    name ∈ e.owners) ∨ _) ∨ name ∈ e.nearestFirst) at hname
  tauto

/-- A name that is not registered is stored by no entity. -/
theorem notMem_of_fresh (hg : g.Consistent) {new : String} (hfresh : new ∉ g.names) {e : Entity}
    (he : e ∈ g.entities) :
    new ∉ e.parents ∧ new ∉ e.children ∧ new ∉ e.ancestors ∧ new ∉ e.descendants := by
  have hrelatives : new ∉ e.relatives := fun hnew => hfresh (hg.relatives_mem e he new hnew)
  simp only [Entity.relatives, List.mem_append, not_or] at hrelatives
  obtain ⟨⟨⟨⟨⟨⟨⟨hparents, hchildren⟩, hancestors⟩, hdescendants⟩, -⟩, -⟩, -⟩, -⟩ := hrelatives
  exact ⟨hparents, hchildren, hancestors, hdescendants⟩

/-- The names of registered entities differ from that of a new one. -/
theorem name_ne_of_fresh {new : String} (hfresh : new ∉ g.names) {e : Entity}
    (he : e ∈ g.entities) : e.name ≠ new :=
  fun heq => hfresh (heq ▸ List.mem_map_of_mem he)

theorem relatives_link (hg : g.Consistent) (hd : g.Drafted d)
    (hclosure : g.closure d.parents = .ok ancestors) :
    ∀ e ∈ (g.link (g.derive d ancestors)).entities,
      ∀ name ∈ e.relatives, name ∈ (g.link (g.derive d ancestors)).names := by
  rw [names_link]
  refine forall_mem_link.mpr ⟨fun e he name hname => ?_, fun name hname => ?_⟩
  · rcases relatives_told name hname with hname | rfl
    · exact List.mem_append_left _ (hg.relatives_mem e he name hname)
    · exact List.mem_append_right _ (List.mem_singleton_self _)
  · exact List.mem_append_left _ (hg.relatives_derive hd hclosure name hname)

theorem parents_first_link (hg : g.Consistent) (hd : g.Drafted d) (before : List Entity)
    (e : Entity) (after : List Entity)
    (h : (g.link (g.derive d ancestors)).entities = before ++ e :: after) :
    ∀ parent ∈ e.parents, parent ∈ before.map Entity.name := by
  rw [entities_link] at h
  rcases List.eq_nil_or_concat after with rfl | ⟨rest, last, rfl⟩
  · obtain ⟨rfl, hlast⟩ := List.append_inj' h rfl
    obtain rfl := List.singleton_inj.mp hlast
    intro parent hparent
    rw [List.map_map]
    exact hd.parents_mem parent hparent
  · rw [List.concat_eq_append, ← List.cons_append, ← List.append_assoc] at h
    obtain ⟨hearlier, -⟩ := List.append_inj' h rfl
    obtain ⟨before, others, hentities, rfl, hothers⟩ := List.map_eq_append_iff.mp hearlier
    obtain ⟨e, rest, rfl, rfl, rfl⟩ := List.map_eq_cons_iff.mp hothers
    intro parent hparent
    rw [List.map_map]
    exact hg.parents_first before e rest hentities parent hparent

theorem acyclic_link (hg : g.Consistent) (hd : g.Drafted d)
    (hclosure : g.closure d.parents = .ok ancestors) (name : String) :
    ¬ (g.link (g.derive d ancestors)).Above name name := by
  intro hcycle
  have hname := mem_names_of_above hcycle
  rw [names_link, List.mem_append, List.mem_singleton] at hname
  rcases hname with hname | rfl
  · exact hg.acyclic name ((hg.above_link_iff (hd.derive_fresh _) hname).mp hcycle)
  · exact hd.fresh (hg.ancestor_mem hd hclosure _ ((hg.above_derive_iff hd hclosure _).mp hcycle))

theorem mem_children_link (hg : g.Consistent) (hd : g.Drafted d) :
    ∀ e ∈ (g.link (g.derive d ancestors)).entities,
      ∀ f ∈ (g.link (g.derive d ancestors)).entities,
        f.name ∈ e.children ↔ e.name ∈ f.parents := by
  refine forall_pair_link (fun e he f hf => ?_) (fun e he => ?_) (fun f hf => ?_) ?_
  · rw [mem_children_told, or_iff_left fun hnew => name_ne_of_fresh (hd.derive_fresh _) hf hnew.2]
    exact hg.mem_children e he f hf
  · obtain ⟨-, hchildren, -, -⟩ := hg.notMem_of_fresh (hd.derive_fresh ancestors) he
    rw [mem_children_told, or_iff_right hchildren]
    exact and_iff_left rfl
  · obtain ⟨hparents, -, -, -⟩ := hg.notMem_of_fresh (hd.derive_fresh ancestors) hf
    exact iff_of_false List.not_mem_nil hparents
  · exact iff_of_false List.not_mem_nil fun hself => hd.fresh (hd.parents_mem _ hself)

theorem mem_ancestors_link (hg : g.Consistent) (hd : g.Drafted d)
    (hclosure : g.closure d.parents = .ok ancestors) :
    ∀ e ∈ (g.link (g.derive d ancestors)).entities,
      ∀ f ∈ (g.link (g.derive d ancestors)).entities,
        f.name ∈ e.ancestors ↔ (g.link (g.derive d ancestors)).Above e.name f.name := by
  refine forall_pair_link (fun e he f hf => ?_) (fun e he => ?_)
    (fun f _ => (hg.above_derive_iff hd hclosure f.name).symm)
    (hg.above_derive_iff hd hclosure _).symm
  · rw [name_told, name_told, hg.above_link_iff (hd.derive_fresh _) (List.mem_map_of_mem he)]
    exact hg.mem_ancestors e he f hf
  · obtain ⟨-, -, hancestors, -⟩ := hg.notMem_of_fresh (hd.derive_fresh ancestors) he
    refine iff_of_false hancestors fun habove => hd.fresh ?_
    exact hg.above_mem ((hg.above_link_iff (hd.derive_fresh _) (List.mem_map_of_mem he)).mp habove)

theorem mem_descendants_link (hg : g.Consistent) (hd : g.Drafted d)
    (hclosure : g.closure d.parents = .ok ancestors) :
    ∀ e ∈ (g.link (g.derive d ancestors)).entities,
      ∀ f ∈ (g.link (g.derive d ancestors)).entities,
        f.name ∈ e.descendants ↔ e.name ∈ f.ancestors := by
  refine forall_pair_link (fun e he f hf => ?_) (fun e he => ?_) (fun f hf => ?_) ?_
  · rw [mem_descendants_told, or_iff_left fun hnew => name_ne_of_fresh (hd.derive_fresh _) hf hnew.2]
    exact hg.mem_descendants e he f hf
  · obtain ⟨-, -, -, hdescendants⟩ := hg.notMem_of_fresh (hd.derive_fresh ancestors) he
    rw [mem_descendants_told, or_iff_right hdescendants, and_iff_left rfl]
    exact hg.mem_above_iff hd hclosure he
  · obtain ⟨-, -, hancestors, -⟩ := hg.notMem_of_fresh (hd.derive_fresh ancestors) hf
    exact iff_of_false List.not_mem_nil hancestors
  · refine iff_of_false List.not_mem_nil fun hself => hd.fresh ?_
    exact hg.ancestor_mem hd hclosure _ hself

/-- Linking a new entity keeps the relations in agreement. -/
theorem link (hg : g.Consistent) (hd : g.Drafted d)
    (hclosure : g.closure d.parents = .ok ancestors) :
    (g.link (g.derive d ancestors)).Consistent where
  names_nodup := nodup_names_link hg.names_nodup (hd.derive_fresh ancestors)
  parents_nodup := forall_mem_link.mpr ⟨hg.parents_nodup, hd.parents_nodup⟩
  relatives_mem := hg.relatives_link hd hclosure
  parents_first := hg.parents_first_link hd
  acyclic := hg.acyclic_link hd hclosure
  mem_children := hg.mem_children_link hd
  mem_ancestors := hg.mem_ancestors_link hd hclosure
  mem_descendants := hg.mem_descendants_link hd hclosure

end

end Consistent

/-- In a graph made by registration the relations agree with the parent links. -/
theorem Registered.consistent {g : Graph} (h : g.Registered) : g.Consistent := by
  induction h with
  | empty => exact .empty
  | register _ h ih =>
    obtain ⟨d, ancestors, hd, hclosure, rfl, rfl⟩ := register_cases h
    exact ih.link (draft_ok hd) hclosure

end Graph

end AccessMatrix
