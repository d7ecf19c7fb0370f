import AccessMatrix.Proofs.Graph.Relations
import AccessMatrix.Proofs.Memory.View
import AccessMatrix.Session.Step

/-!
# Graphs run as memories do

To register an entity in a graph is to register it in a memory that shows this graph: the same
requests are refused, with the same errors, and what is taken in has the same relations. The steps of
the two stand in the same order, so that this is shown step by step: the parts of the new entity are
checked, what stands above it is found, and the entities there are told.
-/

namespace AccessMatrix

namespace Memory

open AccessMatrix.Graph (Link Ends)
open Outcome

variable {m : Memory} {graph : Nat} {g : Graph} {depth id : Nat} {parents ancestors : List Nat}

/-- An entity that stood in no relation but that to its parents has the relations that follow. -/
theorem linked_object_self {label : Name} {kind : Kind} {roleLabels : List Name}
    (hobject : m.object id = { label, kind, roleLabels, parents := parents.map .entity })
    (hparents : id ∉ parents) (habove : id ∉ m.above parents)
    (hgates : id ∉ m.gatesOf depth parents) :
    (m.linked depth graph id parents ancestors).object id =
      { label, kind, roleLabels
        parents := parents.map .entity
        ancestors
        required := ancestors.filter (m.isRequired parents)
        owners := (m.gatesOf depth parents).foldl withPlace []
        level := 1 + (parents.map fun parent => (m.object parent).level).foldl max 0
        nearestFirst := ancestors.mergeSort m.isNearer } := by
  have hself : (m.settle id parents ancestors).object id =
      { label, kind, roleLabels
        parents := parents.map .entity
        ancestors
        required := ancestors.filter (m.isRequired parents)
        level := 1 + (parents.map fun parent => (m.object parent).level).foldl max 0
        nearestFirst := ancestors.mergeSort m.isNearer } := by
    refine (if_pos rfl).trans ?_
    rw [hobject]
  rw [linked_object, if_pos rfl, hself]
  simp [Object.noting, hparents, habove, hgates]

theorem held_linked (m : Memory) (depth graph id : Nat) (parents ancestors : List Nat) :
    (m.linked depth graph id parents ancestors).held graph = m.held graph ++ [id] := by
  simp [held, entries_linked, List.filter_append]

theorem nameOf_linked (m : Memory) (depth graph id : Nat) (parents ancestors : List Nat) :
    (m.linked depth graph id parents ancestors).nameOf = m.nameOf := by
  refine funext fun other => ?_
  have hsettled := (m.settle_object id parents ancestors other).2.1
  rw [nameOf, linked_object]
  exact congrArg Name.text hsettled

namespace Shows

/-- What stands above held entities is held. -/
theorem above_held (h : m.Shows graph g) (hparents : ∀ parent ∈ parents, parent ∈ m.held graph) :
    ∀ other ∈ m.above parents, other ∈ m.held graph := by
  intro other hother
  obtain ⟨parent, hparent, hother⟩ := List.mem_flatMap.mp hother
  rcases List.mem_cons.mp hother with rfl | hother
  · exact hparents other hparent
  · exact h.related parent (hparents parent hparent) other (by simp [relatives, hother])

/-- What stands above names is what stands above their entities. -/
theorem mem_above_map (h : m.Shows graph g) (hparents : ∀ parent ∈ parents, parent ∈ m.held graph)
    {other : Nat} (hother : other ∈ m.held graph) :
    m.nameOf other ∈ g.above (parents.map m.nameOf) ↔ other ∈ m.above parents := by
  have hmem (name : String) :
      name ∈ g.above (parents.map m.nameOf) ↔ name ∈ (m.above parents).map m.nameOf := by
    rw [Graph.above, h.filterMap_find? hparents, List.flatMap_map, List.mem_append, List.mem_flatMap,
      List.mem_map, List.mem_map]
    constructor
    · rintro (⟨parent, hparent, rfl⟩ | ⟨parent, hparent, hname⟩)
      · exact ⟨parent, mem_above.mpr ⟨parent, hparent, .inl rfl⟩, rfl⟩
      · obtain ⟨ancestor, hancestor, rfl⟩ := List.mem_map.mp hname
        exact ⟨ancestor, mem_above.mpr ⟨parent, hparent, .inr hancestor⟩, rfl⟩
    · rintro ⟨other, hother, rfl⟩
      obtain ⟨parent, hparent, rfl | hancestor⟩ := mem_above.mp hother
      · exact .inl ⟨other, hparent, rfl⟩
      · exact .inr ⟨parent, hparent, List.mem_map_of_mem hancestor⟩
  rw [hmem, Graph.mem_map_iff_of_injOn h.injOn (h.above_held hparents) hother]

/-- A held ancestor is required as its name is. -/
theorem isRequired_eq (h : m.Shows graph g) (hparents : ∀ parent ∈ parents, parent ∈ m.held graph)
    {ancestor : Nat} (hancestor : ancestor ∈ m.held graph) :
    m.isRequired parents ancestor =
      Graph.isRequired (parents.map m.depict) (m.nameOf ancestor) := by
  rw [Bool.eq_iff_iff, isRequired, Graph.isRequired, List.all_eq_true, List.all_eq_true,
    List.forall_mem_map]
  refine forall₂_congr fun parent hparent => ?_
  have hname : m.nameOf parent = m.nameOf ancestor ↔ parent = ancestor :=
    ⟨h.injOn parent (hparents parent hparent) ancestor hancestor, congrArg m.nameOf⟩
  have hheld : ∀ other ∈ (m.object parent).required, other ∈ m.held graph := fun other hother =>
    h.related parent (hparents parent hparent) other (by simp [relatives, hother])
  have hrequired := Graph.mem_map_iff_of_injOn h.injOn hheld hancestor
  rw [Bool.or_eq_true, Bool.or_eq_true, decide_eq_true_eq, decide_eq_true_eq, List.contains_iff_mem,
    List.contains_iff_mem]
  exact or_congr hname.symm hrequired.symm

end Shows

/-- A memory that shows a graph and has an entity that the graph is about to take in: one that was
checked and stands in no relation but that to its parents, above which no way goes on for ever. -/
structure Ready (m : Memory) (graph : Nat) (g : Graph) (id : Nat) (d : Draft)
    (parents ancestors : List Nat) : Prop where
  shows : m.Shows graph g
  object : m.object id =
    { label := d.label, kind := d.kind, roleLabels := d.roleLabels, parents := parents.map .entity }
  unheld : id ∉ m.held graph
  free : m.find? graph d.label.text = none
  parents_held : ∀ parent ∈ parents, parent ∈ m.held graph
  ancestors_held : ∀ ancestor ∈ ancestors, ancestor ∈ m.held graph
  parents_eq : d.parents = parents.map m.nameOf
  ends : ∀ name ∈ d.parents, Ends g.parentsOf name

namespace Ready

variable {d : Draft}

theorem parentIds_eq (h : m.Ready graph g id d parents ancestors) : m.parentIds id = parents :=
  parentIds_of_entities (by rw [h.object])

/-- The relations of an entity that is taken in. -/
theorem object_linked (h : m.Ready graph g id d parents ancestors) (depth : Nat) :
    (m.linked depth graph id parents ancestors).object id =
      { label := d.label
        kind := d.kind
        roleLabels := d.roleLabels
        parents := parents.map .entity
        ancestors
        required := ancestors.filter (m.isRequired parents)
        owners := (m.gatesOf depth parents).foldl withPlace []
        level := 1 + (parents.map fun parent => (m.object parent).level).foldl max 0
        nearestFirst := ancestors.mergeSort m.isNearer } :=
  linked_object_self h.object (fun hid => h.unheld (h.parents_held id hid))
    (fun hid => h.unheld (h.shows.above_held h.parents_held id hid))
    (fun hid => h.unheld (h.shows.gatesOf_held depth h.parents_held id hid))

/-- The contexts that gate an entity that is taken in are those of the view. -/
theorem owners_eq (h : m.Ready graph g id d parents ancestors) (hdepth : g.size ≤ depth) :
    ((m.gatesOf depth parents).foldl withPlace []).map m.nameOf = g.gates d.parents := by
  rw [h.parents_eq]
  exact h.shows.gatesOf_eq hdepth h.parents_held (h.parents_eq ▸ h.ends)

/-- What follows for an entity that is taken in is what follows in the view. -/
theorem depict_self (h : m.Ready graph g id d parents ancestors) (hdepth : g.size ≤ depth) :
    (m.linked depth graph id parents ancestors).depict id =
      g.derive d (ancestors.map m.nameOf) := by
  have hself := h.object_linked depth
  have hparents : d.parents.filterMap g.find? = parents.map m.depict := by
    rw [h.parents_eq, h.shows.filterMap_find? h.parents_held]
  have hrequired : (ancestors.filter (m.isRequired parents)).map m.nameOf =
      (ancestors.map m.nameOf).filter (Graph.isRequired (parents.map m.depict)) := by
    rw [List.filter_map]
    exact congrArg _ (List.filter_congr fun ancestor hancestor =>
      h.shows.isRequired_eq h.parents_held (h.ancestors_held ancestor hancestor))
  have hnearest : (ancestors.mergeSort m.isNearer).map m.nameOf =
      ((ancestors.map m.depict).mergeSort Graph.isNearer).map Entity.name := by
    rw [← List.map_mergeSort (r := m.isNearer) (f := m.depict) (fun _ _ _ _ => rfl), List.map_map]
    rfl
  simp only [depict, parentIds_linked, h.parentIds_eq, hself, nameOf_linked, Graph.derive, hparents,
    h.shows.filterMap_find? h.ancestors_held, hrequired, hnearest, h.owners_eq hdepth,
    List.map_map, List.map_nil, ← h.parents_eq]
  rfl

/-- An entity that the graph holds is told of the one that is taken in as it is in the view. -/
theorem depict_of_held (h : m.Ready graph g id d parents ancestors) (hdepth : g.size ≤ depth)
    {other : Nat} (hother : other ∈ m.held graph) :
    (m.linked depth graph id parents ancestors).depict other =
      g.told (g.derive d (ancestors.map m.nameOf)) (m.depict other) := by
  have hinj := h.shows.injOn
  have hne : other ≠ id := fun heq => h.unheld (heq ▸ hother)
  have hrelated (low : Nat) (hlow : low ∈ m.relatives other) : low ∈ m.held graph :=
    h.shows.related other hother low hlow
  have hname : d.label.text = m.nameOf id := by rw [nameOf, h.object]; rfl
  have hnoted (stored : List Nat) (hstored : stored ⊆ m.relatives other) (known : Bool)
      (p : Prop) [Decidable p] (hp : p ↔ known = true) :
      (if known then withPlace stored id else stored).map m.nameOf =
        if p then stored.map m.nameOf ++ [d.label.text] else stored.map m.nameOf := by
    have hfresh : id ∉ stored := fun hmem => h.unheld (hrelated id (hstored hmem))
    simp only [hp, withPlace, if_neg hfresh, hname]
    split <;> simp
  have hchild : m.nameOf other ∈ d.parents ↔ parents.contains other = true := by
    rw [h.parents_eq, Graph.mem_map_iff_of_injOn hinj h.parents_held hother, List.contains_iff_mem]
  have hbelow : m.nameOf other ∈ g.above d.parents ↔ (m.above parents).contains other = true := by
    rw [h.parents_eq, h.shows.mem_above_map h.parents_held hother, List.contains_iff_mem]
  have hgated : m.nameOf other ∈ g.gates d.parents ↔
      (m.gatesOf depth parents).contains other = true := by
    have hgates : ∀ gate ∈ (m.gatesOf depth parents).foldl withPlace [], gate ∈ m.held graph := by
      intro gate hgate
      exact h.shows.gatesOf_held depth h.parents_held gate (by simpa using mem_foldl_withPlace.mp hgate)
    rw [← h.owners_eq hdepth, Graph.mem_map_iff_of_injOn hinj hgates hother, mem_foldl_withPlace,
      List.contains_iff_mem]
    simp
  have hchildren := hnoted (m.object other).children
    (fun low hlow => by simp [relatives, hlow]) _ _ hchild
  have hdescendants := hnoted (m.object other).descendants
    (fun low hlow => by simp [relatives, hlow]) _ _ hbelow
  have hcontrollers := hnoted (m.object other).controllers
    (fun low hlow => by simp [relatives, hlow]) _ _ hgated
  simp only [depict, nameOf_linked, parentIds_linked, linked_object_of_ne hne, Object.noting, hchildren,
    hdescendants, hcontrollers]
  rfl

/-- What is related to what the graph holds is held by it when the new entity is. -/
theorem related_linked (h : m.Ready graph g id d parents ancestors) (depth : Nat) {other low : Nat}
    (hother : other ∈ m.held graph ∨ other = id)
    (hlow : low ∈ (m.linked depth graph id parents ancestors).relatives other) :
    low ∈ m.held graph ∨ low = id := by
  rcases hother with hother | rfl
  · refine or_iff_not_imp_right.mpr fun hne => h.shows.related other hother low ?_
    have hother : other ≠ id := fun heq => h.unheld (heq ▸ hother)
    simpa only [relatives, parentIds_linked, linked_object_of_ne hother, Object.noting,
      List.mem_append, mem_noted, hne, false_and, or_false] using hlow
  · simp only [relatives, parentIds_linked, h.parentIds_eq, h.object_linked, List.mem_append,
      List.not_mem_nil, or_false, List.mem_filter, mem_foldl_withPlace, false_or,
      List.mem_mergeSort] at hlow
    rcases hlow with (((hlow | hlow) | hlow) | hlow) | hlow
    · exact .inl (h.parents_held low hlow)
    · exact .inl (h.ancestors_held low hlow)
    · exact .inl (h.ancestors_held low hlow.1)
    · exact .inl (h.shows.gatesOf_held depth h.parents_held low hlow)
    · exact .inl (h.ancestors_held low hlow)

/-- The memory in which a graph has taken in an entity shows the graph in which it is linked. -/
theorem shows_linked (h : m.Ready graph g id d parents ancestors) (hdepth : g.size ≤ depth) :
    (m.linked depth graph id parents ancestors).Shows graph
      (g.link (g.derive d (ancestors.map m.nameOf))) := by
  have hname : m.nameOf id = d.label.text := by rw [nameOf, h.object]; rfl
  refine ⟨?_, fun entry hentry hgraph => ?_, ?_, fun other hother => ?_, fun other hother low hlow => ?_⟩
  · rw [held_linked, List.map_append, List.map_singleton, h.depict_self hdepth, Graph.entities_link,
      h.shows.entities, List.map_map]
    exact congrArg (· ++ _) (List.map_congr_left fun other hother =>
      (h.depict_of_held hdepth hother).symm)
  · rw [nameOf_linked]
    rw [entries_linked, List.mem_append, List.mem_singleton] at hentry
    rcases hentry with hentry | rfl
    · exact h.shows.named entry hentry hgraph
    · rfl
  · rw [held_linked, nameOf_linked, List.map_append, List.nodup_append]
    refine ⟨h.shows.names_nodup, List.nodup_singleton _, fun name hmem other hother heq => ?_⟩
    obtain ⟨taken, htaken, rfl⟩ := List.mem_map.mp hmem
    obtain rfl := List.mem_singleton.mp hother
    have hfree := h.free
    rw [← hname, ← heq, h.shows.find?_nameOf htaken] at hfree
    cases hfree
  · rw [held_linked, List.mem_append, List.mem_singleton] at hother
    rw [parents_linked, parentIds_linked]
    rcases hother with hother | rfl
    · exact h.shows.parents other hother
    · rw [h.parentIds_eq, h.object]
  · rw [held_linked, List.mem_append, List.mem_singleton] at hother ⊢
    exact h.related_linked depth hother hlow

/-- Telling the parents of an entity that is taken in does not fail. -/
theorem tellAll_eq (h : m.Ready graph g id d parents ancestors) (depth : Nat) :
    ((m.settle id parents ancestors).enter graph id).tellAll depth id parents =
      (.ok (), m.linked depth graph id parents ancestors) := by
  cases hran : ((m.settle id parents ancestors).enter graph id).tellAll depth id parents with
  | mk outcome later =>
    obtain error | ⟨⟩ := outcome
    · obtain ⟨parent, hparent, hfails⟩ := exists_of_tellAll_error hran
      rw [gates_settled, (h.shows.gates_eq depth (h.parents_held parent hparent)).1] at hfails
      cases hfails
    · rw [linked_of_tellAll (fun hid => h.unheld (h.parents_held id hid)) hran]

end Ready

/-- Parents that are given to a memory for those that are given to its view. -/
inductive Lists (m : Memory) (graph : Nat) : Refs → List Item ⊕ Value → Prop where
  | each {refs : List Ref} {items : List Item} (h : List.Forall₂ (Means m graph) refs items) :
      Lists m graph (.each refs) (.inl items)
  | among (v : Value) : Lists m graph (.among v) (.inr v)

/-- What is asked of a memory for what is asked of its view. -/
structure Asks (m : Memory) (graph : Nat) (r : Registration) (making : Making) : Prop where
  kind : making.kind = r.kind
  name : making.name = r.name
  roles : making.roles = r.roles
  parents : Lists m graph r.parents making.parents

theorem Means.make {ref : Ref} {item : Item} (h : Means m graph ref item) (o : Object) :
    Means (m.make o) graph ref item := by
  cases h with
  | own hfind => exact .own hfind
  | foreign hid hlabel hunheld hroot =>
    rename_i name id
    have hobject : (m.make o).object id = m.object id := if_neg (Nat.ne_of_lt hid)
    refine .foreign (Nat.lt_succ_of_lt hid) ?_ hunheld ?_
    · rw [hobject, hlabel]
    · rwa [IsRoot, hobject]
  | value v => exact .value v

/-- The memory with a new entity whose parts have been checked. -/
def drafted (m : Memory) (d : Draft) (parents : List Nat) : Memory :=
  m.make
    { label := d.label, kind := d.kind, roleLabels := d.roleLabels, parents := parents.map .entity }

theorem write_make (m : Memory) (o : Object) (change : Object → Object) :
    (m.make o).write m.size change = m.make (change o) := by
  refine Memory.ext rfl (funext fun other => ?_) rfl
  by_cases hother : other = m.size <;> simp [write, Memory.make, hother]

namespace Shows

variable {r : Registration} {making : Making}

theorem held_lt (hm : m.Sized) {id : Nat} (hid : id ∈ m.held graph) : id < m.size :=
  hm.lt_of_knows (knows_iff.mpr ⟨graph, mem_held.mp hid⟩)

/-- A new object does not show. -/
theorem make (h : m.Shows graph g) (hm : m.Sized) (o : Object) : (m.make o).Shows graph g :=
  h.of_held rfl fun _ hid => if_neg (Nat.ne_of_lt (held_lt hm hid))

/-- Parents are given one by one in the same way, or fail to be in the same way. -/
theorem items_eq (hasks : Asks m graph r making) :
    (∃ error, r.parents.toList = .error error ∧ making.items = .error error) ∨
      ∃ refs items, r.parents.toList = .ok refs ∧ making.items = .ok items ∧
        List.Forall₂ (Means m graph) refs items := by
  obtain ⟨kind, name, roles, parents⟩ := r
  obtain ⟨kind', name', roles', parents'⟩ := making
  obtain ⟨rfl, rfl, rfl, hparents⟩ := hasks
  cases hparents with
  | each hmeans => exact .inr ⟨_, _, rfl, rfl, hmeans⟩
  | among v =>
    simp only [Refs.toList, Making.items]
    cases v.iterate with
    | error misuse => exact .inl ⟨_, rfl, rfl⟩
    | ok items =>
      refine .inr ⟨_, _, rfl, rfl, ?_⟩
      rw [List.forall₂_map_left_iff, List.forall₂_map_right_iff, List.forall₂_same]
      exact fun v _ => .value v

theorem map_nameOf_make (hm : m.Sized) (o : Object) {ids : List Nat}
    (hids : ∀ id ∈ ids, id ∈ m.held graph) : ids.map (m.make o).nameOf = ids.map m.nameOf :=
  List.map_congr_left fun id hid =>
    congrArg Object.name (if_neg (Nat.ne_of_lt (held_lt hm (hids id hid))))

/-- A new object is accepted as an entity of the view. -/
theorem accept_make (h : m.Shows graph g) (hm : m.Sized) {o : Object} {refs : List Ref}
    (hmeans : List.Forall₂ (Means m graph) refs o.parents) :
    ((m.make o).accept graph m.size).map (List.map m.nameOf) =
      if g.has o.name then .error (.graph (.nameTaken o.label)) else g.resolveParents o.label refs := by
  have hmake := h.make hm o
  have hobject : (m.make o).object m.size = o := if_pos rfl
  rw [hmake.resolveParents_eq (hmeans.imp fun _ _ hmeans => hmeans.make o), hmake.has_eq, accept, hobject]
  split
  · rfl
  · cases hids : o.parents.mapM ((m.make o).resolve graph o.label) with
    | error error => rfl
    | ok ids =>
      exact congrArg Except.ok (map_nameOf_make hm o fun id hid =>
        mem_held_of_mapM hids id (List.mem_eraseDups.mp hid)).symm

/-- What is asked for is checked in the memory as it is in the view. -/
theorem draft_eq (h : m.Shows graph g) (hm : m.Sized) (hasks : Asks m graph r making) :
    g.draft r = do
      let o ← create making
      let parents ← (m.make o).accept graph m.size
      let roleLabels ← Graph.checkRoles o.label [] (o.given?.getD [])
      return { kind := o.kind, label := o.label, roleLabels, parents := parents.map m.nameOf } := by
  have hitems := items_eq hasks
  obtain ⟨kind, name, roles, parents⟩ := r
  obtain ⟨kind', name', roles', parents'⟩ := making
  obtain ⟨rfl, rfl, rfl, -⟩ := hasks
  have hbind {β : Type} (o : Object) (f : List String → Except Error β) :
      ((m.make o).accept graph m.size >>= fun parents => f (parents.map m.nameOf)) =
        ((m.make o).accept graph m.size).map (List.map m.nameOf) >>= f := by
    cases (m.make o).accept graph m.size <;> rfl
  have hgiven : Making.givenRoles ⟨kind', name', roles', parents'⟩ =
      if kind' = .context then (Error.ofMisuse roles'.iterate).map some else .ok none := rfl
  unfold Graph.draft create
  rw [hgiven]
  cases name'.asName? with
  | none =>
    by_cases hkind : kind' = .context <;> simp only [hkind, if_true, if_false] <;>
      cases roles'.iterate <;> rfl
  | some label =>
    rcases hitems with ⟨error, hrefs, hitems⟩ | ⟨refs, items, hrefs, hitems, hmeans⟩
    · simp only at hrefs
      simp only [hrefs, hitems]
      by_cases hkind : kind' = .context <;> simp only [hkind, if_true, if_false] <;>
        cases roles'.iterate <;> rfl
    · simp only at hrefs
      simp only [hrefs, hitems]
      have hrest (given? : Option (List Value)) :
          ((if g.has label.text then .error (.graph (.nameTaken label)) else
              g.resolveParents label refs) >>= fun parents => do
            let roleLabels ← Graph.checkRoles label [] (given?.getD [])
            return { kind := kind', label, roleLabels, parents }) = (do
          let parents ← (m.make { label, kind := kind', given?, parents := items }).accept graph m.size
          let roleLabels ← Graph.checkRoles label [] (given?.getD [])
          return ({ kind := kind', label, roleLabels, parents := parents.map m.nameOf } : Draft)) := by
        have haccept := h.accept_make hm (o := { label, kind := kind', given?, parents := items }) hmeans
        exact (congrArg (· >>= _) haccept.symm).trans (hbind _ _).symm
      split
      · cases roles'.iterate with
        | error misuse => rfl
        | ok given =>
          refine Eq.trans ?_ (hrest (some given))
          change (if g.has label.text then _ else _) = (if g.has label.text then _ else _) >>= _
          split <;> rfl
      · refine Eq.trans ?_ (hrest none)
        change (if g.has label.text then _ else _) = (if g.has label.text then _ else _) >>= _
        split <;> rfl

/-- The roles of a new object are checked and its parents are written as if it had been made with them. -/
theorem validate_make {o : Object} (hcreate : create making = .ok o) (parents : List Item) :
    ((m.make o).validate m.size).map (fun checked => checked.assignParents m.size parents) =
      (Graph.checkRoles o.label [] (o.given?.getD [])).map fun roleLabels =>
        m.make { label := o.label, kind := o.kind, roleLabels, parents } := by
  obtain ⟨label, given?, listed, -, hgiven, rfl⟩ := create_ok hcreate
  have hobject : (m.make { label, kind := making.kind, given?, parents := listed }).object m.size =
      { label, kind := making.kind, given?, parents := listed } := if_pos rfl
  rw [validate, hobject]
  by_cases hkind : making.kind = .context
  · obtain ⟨given, rfl⟩ := Option.isSome_iff_exists.mp (hgiven.trans (decide_eq_true hkind))
    simp only [Object.isContext, hkind, decide_true, if_true, Option.getD_some]
    cases Graph.checkRoles label [] given with
    | error error => rfl
    | ok roleLabels =>
      simp only [Except.map, write_make, assignParents]
  · obtain rfl : given? = none := by simpa [hkind] using hgiven
    simp only [Object.isContext, hkind, decide_false, Bool.false_eq_true, if_false, Except.map,
      write_make, assignParents]
    rfl

/-- The parts of a new entity are refused as in the view, or they are found to be in order and the
search for what stands above it decides. -/
theorem draft_cases (h : m.Shows graph g) (hm : m.Sized) (hasks : Asks m graph r making) :
    let ran := m.attempt graph (.making making)
    (∃ error, g.draft r = .error error ∧ ran.1 = .error error ∧ ran.2.Shows graph g) ∨
      ∃ d parents, g.draft r = .ok d ∧ (∀ parent ∈ parents, parent ∈ m.held graph) ∧
        d.parents = parents.map m.nameOf ∧ m.find? graph d.label.text = none ∧
        (∀ error, (m.drafted d parents).closure (m.size + 1) parents = .error error →
          ran = (.error error, m.drafted d parents)) ∧
        ∀ ancestors, (m.drafted d parents).closure (m.size + 1) parents = .ok ancestors →
          ran = (((m.drafted d parents).settle m.size parents ancestors).enter graph m.size).tellAll
            (m.size + 1) m.size parents := by
  have hdraft := h.draft_eq hm hasks
  rw [attempt, attemptWithin]
  cases hcreate : create making with
  | error error =>
    rw [hcreate] at hdraft
    exact .inl ⟨error, hdraft, rfl, h⟩
  | ok o =>
    have hmade := h.make hm o
    rw [hcreate] at hdraft
    change g.draft r = ((m.make o).accept graph m.size >>= _) at hdraft
    dsimp only
    rw [registerWithin]
    cases haccept : (m.make o).accept graph m.size with
    | error error =>
      rw [haccept] at hdraft
      exact .inl ⟨error, hdraft, rfl, hmade⟩
    | ok parents =>
      have hplaced := validate_make (m := m) hcreate (parents.map .entity)
      rw [haccept] at hdraft
      change g.draft r = (Graph.checkRoles o.label [] (o.given?.getD []) >>= _) at hdraft
      dsimp only
      cases hroles : Graph.checkRoles o.label [] (o.given?.getD []) with
      | error error =>
        rw [hroles] at hdraft hplaced
        rw [map_eq_error.mp hplaced]
        exact .inl ⟨error, hdraft, rfl, hmade⟩
      | ok roleLabels =>
        rw [hroles] at hdraft hplaced
        obtain ⟨checked, hchecked, hplaced⟩ := map_eq_ok.mp hplaced
        obtain ⟨hfree, -, hheld⟩ := accept_ok haccept
        have hobject : (m.make o).object m.size = o := if_pos rfl
        rw [hobject] at hfree
        have hdrafted : checked.assignParents m.size (parents.map .entity) =
            m.drafted { kind := o.kind, label := o.label, roleLabels, parents := parents.map m.nameOf }
              parents := hplaced
        refine .inr ⟨_, parents, hdraft, fun parent hparent => mem_held.mpr (hheld parent hparent), rfl,
          hfree, fun error hclosure => ?_, fun ancestors hclosure => ?_⟩
        · rw [hchecked]
          dsimp only
          rw [hdrafted, hclosure]
        · rw [hchecked]
          dsimp only
          rw [hdrafted, hclosure]

/-- A new entity that has been checked is taken in as it is in the view. -/
theorem take_in (h : m.Shows graph g) (hm : m.Sized) {d : Draft} {parents : List Nat}
    (hparents : ∀ parent ∈ parents, parent ∈ m.held graph) (hnames : d.parents = parents.map m.nameOf)
    (hfree : m.find? graph d.label.text = none) :
    let placed := m.drafted d parents
    (∃ cycle, g.closure d.parents = .error cycle ∧ placed.Shows graph g ∧
      placed.closure (m.size + 1) parents =
        .error (.graph (.cyclic (g.labelOf cycle.name) cycle.path))) ∨
      ∃ ancestors, g.closure d.parents = .ok (ancestors.map placed.nameOf) ∧
        placed.closure (m.size + 1) parents = .ok ancestors ∧
        placed.Ready graph g m.size d parents ancestors := by
  intro placed
  have hplaced : placed.Shows graph g := h.make hm _
  have hnames : d.parents = parents.map placed.nameOf := by
    rw [hnames]
    exact (map_nameOf_make hm _ hparents).symm
  rw [hnames]
  rcases hplaced.closure_eq (Nat.le_succ_of_le (h.size_le hm)) hparents with
    ⟨cycle, hclosure, hmemory⟩ | ⟨ancestors, hancestors, hclosure, hmemory⟩
  · exact .inl ⟨_, hclosure, hplaced, hmemory⟩
  · have hends := Graph.ends_of_closure hclosure
    refine .inr ⟨ancestors, hclosure, hmemory, hplaced, if_pos rfl, fun hid => ?_, hfree, hparents,
      hancestors, hnames, hnames ▸ hends⟩
    exact Nat.lt_irrefl _ (held_lt hm hid)

/-- To register a new entity in the memory is to register it in the view: it fails there as it does
here and leaves the view as it is, or it succeeds and leads to the view with the new entity. -/
theorem register_eq (h : m.Shows graph g) (hm : m.Sized) (hasks : Asks m graph r making) :
    let ran := m.attempt graph (.making making)
    (∃ error, g.register r = .error error ∧ ran.1 = .error error ∧ ran.2.Shows graph g) ∨
      ∃ g' new, g.register r = .ok (g', new) ∧ ran.1 = .ok () ∧ ran.2.Shows graph g' ∧
        ran.2.depict m.size = new := by
  intro ran
  rcases h.draft_cases hm hasks with
    ⟨error, hdraft, hran, hshown⟩ | ⟨d, parents, hdraft, hparents, hnames, hfree, hfails, hgoes⟩
  · refine .inl ⟨error, ?_, hran, hshown⟩
    rw [Graph.register, hdraft]
    rfl
  · rcases h.take_in hm hparents hnames hfree with
      ⟨cycle, hclosure, hshown, hmemory⟩ | ⟨ancestors, hclosure, hmemory, hready⟩
    · have hran : ran = _ := hfails _ hmemory
      rw [hran]
      refine .inl ⟨_, ?_, rfl, hshown⟩
      simp only [Graph.register, hdraft, bind, Except.bind, hclosure]
      rfl
    · have hran : ran = _ := hgoes _ hmemory
      have hdepth : g.size ≤ m.size + 1 := Nat.le_succ_of_le (h.size_le hm)
      rw [hready.tellAll_eq] at hran
      rw [hran]
      refine .inr ⟨_, _, ?_, rfl, hready.shows_linked hdepth, hready.depict_self hdepth⟩
      simp only [Graph.register, hdraft, bind, Except.bind, hclosure]
      rfl

/-- An entity that is handed over again is refused by the memory as by the view, and nothing changes. -/
theorem registerAgain_eq (h : m.Shows graph g) {ref : Ref} {item : Item}
    (hmeans : Means m graph ref item) :
    m.attempt graph (.again item) = (Session.refuseAgain g ref, m) := by
  have htaken {id : Nat} (hfind : (m.find? graph (m.object id).name).isSome) :
      m.attempt graph (.again (.entity id)) = (.error (.graph (.nameTaken (m.object id).label)), m) := by
    have haccept : m.accept graph id = .error (.graph (.nameTaken (m.object id).label)) := if_pos hfind
    rw [attempt, attemptWithin, registerWithin, haccept]
  cases hmeans with
  | own hfind =>
    rename_i name id
    obtain ⟨hid, rfl⟩ := h.held_of_find? hfind
    have hlabel : g.labelOf (m.nameOf id) = (m.object id).label := by
      rw [Graph.labelOf, h.find?_depict hid]
      rfl
    rw [htaken (Option.isSome_iff_exists.mpr ⟨id, hfind⟩), Session.refuseAgain, hlabel]
  | foreign hid hlabel hunheld hroot =>
    rename_i name id
    obtain ⟨hcontext, hgiven, hparents⟩ := hroot
    have hname : (m.object id).name = name := congrArg Name.text hlabel
    rw [Session.refuseAgain, h.has_eq]
    split
    · rename_i hfind
      rw [htaken (hname ▸ hfind), hlabel]
    · rename_i hfind
      have haccept : m.accept graph id = .ok [] := by
        rw [accept, hname, if_neg hfind, hparents]
        rfl
      have hvalidate : m.validate id = .error (.misuse (.noMember Kind.context.name "_role_names")) := by
        rw [validate, if_pos hcontext, hgiven]
        rw [Object.isContext, decide_eq_true_eq] at hcontext
        simp only [hcontext]
      rw [attempt, attemptWithin, registerWithin, haccept]
      simp only [hvalidate]
  | value v =>
    rw [attempt, attemptWithin, refuseValue, Session.refuseAgain]
    cases v.memberName? with
    | none => rfl
    | some name =>
      dsimp only
      rw [h.has_eq]
      split <;> rfl

/-- To reassign the parents of an entity that the graph holds is to do so in the view. -/
theorem assignParents_eq (h : m.Shows graph g) {id : Nat} {parents : List Nat} (hid : id ∈ m.held graph)
    (hparents : ∀ parent ∈ parents, parent ∈ m.held graph) :
    (m.assignParents id (parents.map .entity)).Shows graph
      (g.assignParents (m.nameOf id) (parents.map m.nameOf)) := by
  have hobject (other : Nat) : (m.assignParents id (parents.map .entity)).object other =
      if other = id then { m.object other with parents := parents.map .entity } else m.object other :=
    rfl
  have hname : (m.assignParents id (parents.map .entity)).nameOf = m.nameOf := by
    refine funext fun other => ?_
    rw [nameOf, hobject]
    split <;> rfl
  have hheld : (m.assignParents id (parents.map .entity)).held graph = m.held graph := rfl
  have hparentIds (other : Nat) : (m.assignParents id (parents.map .entity)).parentIds other =
      if other = id then parents else m.parentIds other := by
    split
    · rename_i heq
      exact parentIds_of_entities (by rw [hobject, if_pos heq])
    · rename_i hne
      rw [parentIds, hobject, if_neg hne]
      rfl
  refine ⟨?_, fun entry hentry hgraph => ?_, ?_, fun other hother => ?_, fun other hother low hlow => ?_⟩
  · rw [Graph.assignParents, h.entities, hheld, List.map_map]
    refine List.map_congr_left fun other hother => ?_
    have heq : (m.depict other).name = m.nameOf id ↔ other = id :=
      ⟨h.injOn other hother id hid, congrArg m.nameOf⟩
    rw [Function.comp_apply]
    by_cases hown : other = id
    · rw [if_pos (heq.mpr hown)]
      simp only [depict, hname, hparentIds, hobject, if_pos hown]
    · rw [if_neg (mt heq.mp hown)]
      simp only [depict, hname, hparentIds, hobject, if_neg hown]
  · rw [hname]
    exact h.named entry hentry hgraph
  · rw [hname]
    exact h.names_nodup
  · rw [hobject, hparentIds]
    split
    · rfl
    · exact h.parents other hother
  · by_cases hown : other = id
    · simp only [relatives, hparentIds, hobject, if_pos hown, List.append_assoc] at hlow
      rcases List.mem_append.mp hlow with hlow | hlow
      · exact hparents low hlow
      · refine h.related other hother low ?_
        simp only [relatives, List.append_assoc]
        exact List.mem_append_right _ hlow
    · simp only [relatives, hparentIds, hobject, if_neg hown] at hlow
      exact h.related other hother low hlow

end Shows

end Memory

end AccessMatrix
