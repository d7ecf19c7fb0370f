import AccessMatrix.Proofs.Graph.Ownership
import AccessMatrix.Proofs.Memory.Registration
import Mathlib.Data.List.Find

/-!
# Graphs as views of a memory

A graph that holds whatever is related to what it holds can be read off the memory: its entities are
the objects that it holds, which refer to each other by their names. To register an entity in the
memory then comes to registering it in this graph, with the same failures.
-/

namespace AccessMatrix.Memory

open AccessMatrix.Graph (Ends)
open Outcome

/-- The name of the entity at a place. -/
def nameOf (m : Memory) (id : Nat) : String := (m.object id).name

/-- An object as an entity that refers to others by their names. -/
def depict (m : Memory) (id : Nat) : Entity where
  label := (m.object id).label
  kind := (m.object id).kind
  roleLabels := (m.object id).roleLabels
  parents := (m.parentIds id).map m.nameOf
  children := (m.object id).children.map m.nameOf
  ancestors := (m.object id).ancestors.map m.nameOf
  descendants := (m.object id).descendants.map m.nameOf
  required := (m.object id).required.map m.nameOf
  owners := (m.object id).owners.map m.nameOf
  controllers := (m.object id).controllers.map m.nameOf
  level := (m.object id).level
  nearestFirst := (m.object id).nearestFirst.map m.nameOf

/-- The entities that a graph holds, in the order of registration. -/
def held (m : Memory) (graph : Nat) : List Nat :=
  (m.entries.filter fun entry => entry.graph = graph).map Entry.id

/-- The entities that an object stores. -/
def relatives (m : Memory) (id : Nat) : List Nat :=
  m.parentIds id ++ (m.object id).children ++ (m.object id).ancestors ++
    (m.object id).descendants ++ (m.object id).required ++ (m.object id).owners ++
    (m.object id).controllers ++ (m.object id).nearestFirst

/-- A graph of the memory shows as a graph of names: it holds its entities under names that tell them
apart, and whatever these store. -/
structure Shows (m : Memory) (graph : Nat) (g : Graph) : Prop where
  entities : g.entities = (m.held graph).map m.depict
  named : ∀ entry ∈ m.entries, entry.graph = graph → m.nameOf entry.id = entry.name
  names_nodup : ((m.held graph).map m.nameOf).Nodup
  parents : ∀ id ∈ m.held graph, (m.object id).parents = (m.parentIds id).map .entity
  related : ∀ id ∈ m.held graph, ∀ other ∈ m.relatives id, other ∈ m.held graph

/-- A context that has no parents and whose roles have been checked. -/
def IsRoot (m : Memory) (id : Nat) : Prop :=
  (m.object id).isContext = true ∧ (m.object id).given? = none ∧ (m.object id).parents = []

/-- What is handed over for an entity or a name means in the memory what it means in the view. The
entities of another graph are contexts that were made there. -/
inductive Means (m : Memory) (graph : Nat) : Ref → Item → Prop where
  | own {name : String} {id : Nat} (h : m.find? graph name = some id) :
      Means m graph (.own name) (.entity id)
  | foreign {name : String} {id : Nat} (hid : id < m.size)
      (hlabel : (m.object id).label = .plain name) (h : m.holds graph id = false)
      (hroot : m.IsRoot id) : Means m graph (.foreign name) (.entity id)
  | value (v : Value) : Means m graph (.value v) (.value v)

variable {m : Memory} {graph : Nat} {g : Graph}

theorem mem_held {id : Nat} : id ∈ m.held graph ↔ m.holds graph id = true := by
  simp only [held, holds, List.mem_map, List.mem_filter, List.any_eq_true, Bool.and_eq_true,
    decide_eq_true_eq, and_assoc]

namespace Shows

/-- Held entities are told apart by their names. -/
theorem injOn (h : m.Shows graph g) : ∀ a, a ∈ m.held graph → ∀ b, b ∈ m.held graph →
    m.nameOf a = m.nameOf b → a = b :=
  fun _ ha _ hb heq => List.inj_on_of_nodup_map h.names_nodup ha hb heq

/-- What a graph holds under a name is what its view has there. -/
theorem find?_eq (h : m.Shows graph g) (name : String) :
    g.find? name = (m.find? graph name).map m.depict := by
  rw [Graph.find?, h.entities, held, List.map_map, List.find?_map, Memory.find?, Option.map_map,
    List.find?_filter]
  congr 1
  refine List.find?_congr fun entry hentry => ?_
  by_cases hgraph : entry.graph = graph
  · have hname : (m.depict entry.id).name = entry.name := h.named entry hentry hgraph
    simp [hgraph, hname]
  · simp [hgraph]

theorem has_eq (h : m.Shows graph g) (name : String) : g.has name = (m.find? graph name).isSome := by
  rw [Bool.eq_iff_iff, Graph.has_iff_mem_names, ← Graph.find?_isSome_iff, h.find?_eq,
    Option.isSome_map]

/-- What a graph holds under a name has this name. -/
theorem held_of_find? (h : m.Shows graph g) {name : String} {id : Nat}
    (hfind : m.find? graph name = some id) : id ∈ m.held graph ∧ m.nameOf id = name := by
  have hentry := mem_of_find? hfind
  exact ⟨mem_held.mpr (holds_iff.mpr ⟨name, hentry⟩), h.named _ hentry rfl⟩

/-- A graph holds an entity under its name. -/
theorem find?_nameOf (h : m.Shows graph g) {id : Nat} (hid : id ∈ m.held graph) :
    m.find? graph (m.nameOf id) = some id := by
  obtain ⟨name, hentry⟩ := holds_iff.mp (mem_held.mp hid)
  have hsome : (m.find? graph (m.nameOf id)).isSome := by
    rw [Memory.find?, Option.isSome_map, List.find?_isSome]
    exact ⟨_, hentry, by simp [h.named _ hentry rfl]⟩
  obtain ⟨other, hother⟩ := Option.isSome_iff_exists.mp hsome
  obtain ⟨hheld, hname⟩ := h.held_of_find? hother
  rw [hother, h.injOn other hheld id hid hname]

theorem find?_depict (h : m.Shows graph g) {id : Nat} (hid : id ∈ m.held graph) :
    g.find? (m.nameOf id) = some (m.depict id) := by
  rw [h.find?_eq, h.find?_nameOf hid]
  rfl

theorem parentsOf_nameOf (h : m.Shows graph g) {id : Nat} (hid : id ∈ m.held graph) :
    g.parentsOf (m.nameOf id) = (m.parentIds id).map m.nameOf := by
  rw [Graph.parentsOf, h.find?_depict hid]
  rfl

theorem mem_held_parent (h : m.Shows graph g) {id parent : Nat} (hid : id ∈ m.held graph)
    (hparent : parent ∈ m.parentIds id) : parent ∈ m.held graph :=
  h.related id hid parent (by simp [relatives, hparent])

/-- The view depends on what the graph holds alone. -/
theorem of_held (h : m.Shows graph g) {later : Memory} (hentries : later.entries = m.entries)
    (hobjects : ∀ id ∈ m.held graph, later.object id = m.object id) : later.Shows graph g := by
  have hheld : later.held graph = m.held graph := by rw [held, held, hentries]
  have hname : ∀ id ∈ m.held graph, later.nameOf id = m.nameOf id := fun id hid =>
    congrArg Object.name (hobjects id hid)
  have hparents : ∀ id ∈ m.held graph, later.parentIds id = m.parentIds id := fun id hid => by
    rw [parentIds, parentIds, hobjects id hid]
  have hrelatives : ∀ id ∈ m.held graph, later.relatives id = m.relatives id := fun id hid => by
    rw [relatives, relatives, hparents id hid, hobjects id hid]
  have hdepict : ∀ id ∈ m.held graph, later.depict id = m.depict id := by
    intro id hid
    have hnames (ids : List Nat) (hids : ∀ other ∈ ids, other ∈ m.relatives id) :
        ids.map later.nameOf = ids.map m.nameOf :=
      List.map_congr_left fun other hother => hname other (h.related id hid other (hids other hother))
    simp only [depict, hobjects id hid, hparents id hid,
      hnames (m.parentIds id) fun _ hother => by simp [relatives, hother],
      hnames (m.object id).children fun _ hother => by simp [relatives, hother],
      hnames (m.object id).ancestors fun _ hother => by simp [relatives, hother],
      hnames (m.object id).descendants fun _ hother => by simp [relatives, hother],
      hnames (m.object id).required fun _ hother => by simp [relatives, hother],
      hnames (m.object id).owners fun _ hother => by simp [relatives, hother],
      hnames (m.object id).controllers fun _ hother => by simp [relatives, hother],
      hnames (m.object id).nearestFirst fun _ hother => by simp [relatives, hother]]
  refine ⟨?_, fun entry hentry hgraph => ?_, ?_, fun id hid => ?_, fun id hid => ?_⟩
  · rw [hheld, h.entities]
    exact (List.map_congr_left hdepict).symm
  · rw [hentries] at hentry
    rw [hname _ (mem_held.mpr (holds_iff.mpr ⟨entry.name, hgraph ▸ hentry⟩))]
    exact h.named entry hentry hgraph
  · rw [hheld, List.map_congr_left hname]
    exact h.names_nodup
  · rw [hheld] at hid
    rw [hobjects id hid, hparents id hid]
    exact h.parents id hid
  · rw [hheld] at hid ⊢
    rw [hrelatives id hid]
    exact h.related id hid

/-- A reference is resolved in the memory as in the view. -/
theorem resolve_eq (h : m.Shows graph g) {ref : Ref} {item : Item} (hmeans : Means m graph ref item)
    (child : Name) :
    (∃ id ∈ m.held graph, m.resolve graph child item = .ok id ∧
      g.refersTo ref = some (m.depict id)) ∨
    m.resolve graph child item = .error (.graph (.unknownParent child ref.label)) ∧
      g.refersTo ref = none := by
  cases hmeans with
  | own hfind =>
    rename_i name id
    obtain ⟨hid, rfl⟩ := h.held_of_find? hfind
    exact .inl ⟨id, hid, if_pos hfind, h.find?_depict hid⟩
  | foreign hid hlabel hunheld hroot =>
    rename_i name id
    refine .inr ⟨?_, rfl⟩
    rw [resolve, if_neg, hlabel]
    · rfl
    · intro hfind
      rw [mem_held.mp (h.held_of_find? hfind).1] at hunheld
      cases hunheld
  | value v =>
    have hrefers : g.refersTo (.value v) = (v.asText?.bind (m.find? graph)).map m.depict := by
      rw [Graph.refersTo, Graph.named?, Option.map_bind]
      exact congrArg _ (funext h.find?_eq)
    rw [resolve, hrefers]
    cases hfind : v.asText?.bind (m.find? graph) with
    | none => exact .inr ⟨rfl, rfl⟩
    | some id =>
      obtain ⟨name, -, hname⟩ := Option.bind_eq_some_iff.mp hfind
      exact .inl ⟨id, (h.held_of_find? hname).1, rfl, rfl⟩

/-- Resolved parents are held by the graph. -/
theorem mem_held_of_mapM {items : List Item} {child : Name} {ids : List Nat}
    (h : items.mapM (m.resolve graph child) = .ok ids) : ∀ id ∈ ids, id ∈ m.held graph := by
  intro id hid
  obtain ⟨item, -, hitem⟩ := exists_of_mem_mapM h id hid
  obtain ⟨name, hfind⟩ := resolve_ok hitem
  exact mem_held.mpr (holds_iff.mpr ⟨name, mem_of_find? hfind⟩)

/-- Parents are resolved in the memory as in the view, each once. -/
theorem resolveParents_eq (h : m.Shows graph g) {refs : List Ref} {items : List Item}
    (hmeans : List.Forall₂ (Means m graph) refs items) (child : Name) :
    g.resolveParents child refs =
      ((items.mapM (m.resolve graph child)).map List.eraseDups).map (List.map m.nameOf) := by
  induction hmeans with
  | nil => rfl
  | cons hmeans hrest ih =>
    rename_i ref item refs items
    rw [Graph.resolveParents, List.mapM_cons]
    rcases h.resolve_eq hmeans child with ⟨id, hid, hresolve, hrefers⟩ | ⟨hresolve, hrefers⟩
    · rw [hresolve, hrefers, ih]
      cases hothers : items.mapM (m.resolve graph child) with
      | error error => rfl
      | ok ids =>
        refine congrArg Except.ok ?_
        change m.nameOf id :: (ids.eraseDups.map m.nameOf).filter (· ≠ m.nameOf id) =
          (id :: ids).eraseDups.map m.nameOf
        rw [List.eraseDups_cons, eraseDups_filter, List.map_cons, List.filter_map]
        refine congrArg (m.nameOf id :: List.map m.nameOf ·) (List.filter_congr fun other hother => ?_)
        have hheld := mem_held_of_mapM hothers other (List.mem_eraseDups.mp hother)
        by_cases heq : other = id
        · simp [heq]
        · have hne : m.nameOf other ≠ m.nameOf id := fun hname => heq (h.injOn _ hheld _ hid hname)
          simp [heq, hne]
    · rw [hresolve, hrefers]
      rfl

/-- The parents of a held entity can be gone through. -/
theorem clean (h : m.Shows graph g) {id : Nat} (hid : id ∈ m.held graph) : m.Clean id := by
  intro v hv
  have hmem := (List.takeWhile_sublist _).subset hv
  rw [h.parents id hid] at hmem
  obtain ⟨_, -, heq⟩ := List.mem_map.mp hmem
  cases heq

/-- The entities of names. -/
theorem filterMap_find? (h : m.Shows graph g) {ids : List Nat} (hids : ∀ id ∈ ids, id ∈ m.held graph) :
    (ids.map m.nameOf).filterMap g.find? = ids.map m.depict := by
  rw [List.filterMap_map, ← List.filterMap_eq_map]
  exact List.filterMap_congr fun id hid => h.find?_depict (hids id hid)

theorem size_eq (h : m.Shows graph g) : g.size = (m.held graph).length := by
  rw [Graph.size, h.entities, List.length_map]

theorem held_nodup (h : m.Shows graph g) : (m.held graph).Nodup := h.names_nodup.of_map _

/-- A graph holds no more than was made. -/
theorem size_le (h : m.Shows graph g) (hm : m.Sized) : g.size ≤ m.size := by
  rw [h.size_eq, ← List.length_range (n := m.size)]
  refine (h.held_nodup.subperm fun id hid => ?_).length_le
  obtain ⟨entry, hentry, rfl⟩ := List.mem_map.mp hid
  exact List.mem_range.mpr (hm.held entry (List.mem_of_mem_filter hentry))

/-- The closure of held entities is that of their names. -/
theorem closure_eq (h : m.Shows graph g) {depth : Nat} (hdepth : g.size ≤ depth) {parents : List Nat}
    (hparents : ∀ parent ∈ parents, parent ∈ m.held graph) :
    (∃ cycle : Graph.Cycle Nat, g.closure (parents.map m.nameOf) = .error (cycle.map m.nameOf) ∧
      m.closure depth parents = .error (.graph (.cyclic (g.labelOf (m.nameOf cycle.name))
        (cycle.path.map m.nameOf)))) ∨
    ∃ ancestors, (∀ id ∈ ancestors, id ∈ m.held graph) ∧
      g.closure (parents.map m.nameOf) = .ok (ancestors.map m.nameOf) ∧
      m.closure depth parents = .ok ancestors := by
  have hup (id : Nat) (hid : id ∈ m.held graph) : g.parentsOf (m.nameOf id) =
      (m.parentIds id).map m.nameOf ∧ ∀ parent ∈ m.parentIds id, parent ∈ m.held graph :=
    ⟨h.parentsOf_nameOf hid, fun _ hparent => h.mem_held_parent hid hparent⟩
  have hmemory := Memory.closure_eq (m := m) (motive := (· ∈ m.held graph))
    (fun id hid => ⟨h.clean hid, (hup id hid).2⟩) depth hparents
  have hnames := Graph.closureWithin_map h.injOn hup depth hparents
  rw [g.closure_stable hdepth] at hnames
  cases hreached : Graph.closureWithin m.parentIds depth parents with
  | error cycle =>
    have hcycle : cycle.name ∈ m.held graph :=
      Graph.closureWithin_error_forall (motive := (· ∈ m.held graph)) (fun id hid => (hup id hid).2)
        hparents hreached
    have hlabel : g.labelOf (m.nameOf cycle.name) = (m.object cycle.name).label := by
      rw [Graph.labelOf, h.find?_depict hcycle]
      rfl
    rw [hreached] at hmemory hnames
    refine .inl ⟨cycle, hnames, ?_⟩
    rw [hmemory, hlabel]
    rfl
  | ok ancestors =>
    rw [hreached] at hmemory hnames
    exact .inr ⟨ancestors, Graph.closureWithin_forall (motive := (· ∈ m.held graph))
      (fun id hid => (hup id hid).2) hparents hreached, hnames, hmemory⟩

/-- The contexts that gate the branch of a held entity are found as in the view. -/
theorem gates_eq (h : m.Shows graph g) (depth : Nat) {id : Nat} (hid : id ∈ m.held graph) :
    (m.gates depth id).2 = none ∧
      (m.gates depth id).1.map m.nameOf = g.gatesWithin depth (m.nameOf id) := by
  induction depth generalizing id with
  | zero => exact ⟨rfl, rfl⟩
  | succ depth ih =>
    have hcontext : g.hasContext (m.nameOf id) = (m.object id).isContext := by
      rw [Graph.hasContext, h.find?_depict hid]
      rfl
    rw [gates_succ, Graph.gatesWithin_succ, hcontext, h.parentsOf_nameOf hid, h.parents id hid]
    split
    · exact ⟨rfl, rfl⟩
    · rw [meet_map_entity fun parent hparent => (ih (h.mem_held_parent hid hparent)).1,
        List.map_flatMap, List.flatMap_map]
      exact ⟨rfl, List.flatMap_congr fun parent hparent => (ih (h.mem_held_parent hid hparent)).2⟩

/-- The contexts that gate some branches are held. -/
theorem gatesOf_held (h : m.Shows graph g) (depth : Nat) {parents : List Nat}
    (hparents : ∀ parent ∈ parents, parent ∈ m.held graph) :
    ∀ gate ∈ m.gatesOf depth parents, gate ∈ m.held graph := by
  intro gate hgate
  obtain ⟨parent, hparent, hgate⟩ := List.mem_flatMap.mp hgate
  exact gates_forall (motive := (· ∈ m.held graph)) (fun _ hid _ => h.mem_held_parent hid)
    (hparents parent hparent) gate hgate

/-- The contexts that gate some branches are those of the view. -/
theorem gatesOf_eq (h : m.Shows graph g) {depth : Nat} (hdepth : g.size ≤ depth) {parents : List Nat}
    (hparents : ∀ parent ∈ parents, parent ∈ m.held graph)
    (hends : ∀ name ∈ parents.map m.nameOf, Ends g.parentsOf name) :
    ((m.gatesOf depth parents).foldl withPlace []).map m.nameOf = g.gates (parents.map m.nameOf) := by
  rw [foldl_withPlace, List.nil_append, List.filter_eq_self.mpr (by simp), map_eraseDups_of_injOn]
  · rw [← Graph.gates_stable hends hdepth, gatesOf, List.map_flatMap, List.flatMap_map]
    exact congrArg List.eraseDups
      (List.flatMap_congr fun parent hparent => (h.gates_eq depth (hparents parent hparent)).2)
  · exact fun a ha b hb =>
      h.injOn a (h.gatesOf_held depth hparents a ha) b (h.gatesOf_held depth hparents b hb)

end Shows

end AccessMatrix.Memory
