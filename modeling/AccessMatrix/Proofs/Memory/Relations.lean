import AccessMatrix.Proofs.Graph.Relations
import AccessMatrix.Proofs.Memory.Registration

/-!
# The relations of entities in memory

Whatever is registered, in however many graphs that share entities, the relations that entities store
agree with their parent links. A graph takes in an entity only where it holds its parents, so it holds
whatever stands above what it holds. What stands below an entity may be held by another graph, but
then that graph holds the entity too.
-/

namespace AccessMatrix

/-- The entities that an object stores as standing above it. -/
def Object.uppers (o : Object) : List Nat :=
  o.parents.filterMap Item.id? ++ o.ancestors ++ o.required ++ o.owners ++ o.nearestFirst

/-- The entities that an object stores as standing below it. -/
def Object.lowers (o : Object) : List Nat := o.children ++ o.descendants ++ o.controllers

namespace Memory

open AccessMatrix.Graph (Link transGen_of_agree)
open Relation (ReflTransGen TransGen)

variable {m : Memory}

/-- An entity reaches another one by one or more parent links. -/
def Above (m : Memory) (id other : Nat) : Prop := TransGen (Link m.parentIds) id other

/-- The relations of the entities that graphs hold agree with their parent links. -/
structure Consistent (m : Memory) : Prop where
  names_nodup : (m.entries.map fun entry => (entry.graph, entry.name)).Nodup
  named : ∀ entry ∈ m.entries, (m.object entry.id).name = entry.name
  parents : ∀ id, m.knows id = true →
    (m.object id).parents = (m.parentIds id).map .entity ∧ (m.parentIds id).Nodup
  parents_first : ∀ before entry after, m.entries = before ++ entry :: after →
    ∀ parent ∈ m.parentIds entry.id, ∃ earlier ∈ before,
      earlier.graph = entry.graph ∧ earlier.id = parent
  acyclic : ∀ id, m.knows id = true → ¬ m.Above id id
  mem_children : ∀ e, m.knows e = true → ∀ f, m.knows f = true →
    (f ∈ (m.object e).children ↔ e ∈ m.parentIds f)
  mem_ancestors : ∀ e, m.knows e = true → ∀ f, f ∈ (m.object e).ancestors ↔ m.Above e f
  mem_descendants : ∀ e, m.knows e = true → ∀ f, m.knows f = true →
    (f ∈ (m.object e).descendants ↔ e ∈ (m.object f).ancestors)
  uppers : ∀ e, m.knows e = true → ∀ f ∈ (m.object e).uppers, m.Above e f
  lowers : ∀ e, m.knows e = true → ∀ f ∈ (m.object e).lowers, m.knows f = true ∧ m.Above f e

/-- What a registration that succeeds comes to, as far as relations go. -/
structure Linked (m later : Memory) (graph id : Nat) (parents ancestors gates : List Nat) : Prop where
  entries : later.entries = m.entries ++ [⟨graph, (m.object id).name, id⟩]
  labels : ∀ other, (later.object other).label = (m.object other).label
  parents_self : (later.object id).parents = parents.map .entity
  ancestors_self : (later.object id).ancestors = ancestors
  required_self : (later.object id).required ⊆ ancestors
  nearestFirst_self : (later.object id).nearestFirst ⊆ ancestors
  owners_self : ∀ gate, gate ∈ (later.object id).owners ↔ gate ∈ (m.object id).owners ∨ gate ∈ gates
  others : ∀ other ≠ id, (later.object other).uppers = (m.object other).uppers ∧
    (later.object other).parents = (m.object other).parents ∧
    (later.object other).ancestors = (m.object other).ancestors
  children : ∀ other new, new ∈ (later.object other).children ↔
    new ∈ (m.object other).children ∨ new = id ∧ other ∈ parents
  descendants : ∀ other new, new ∈ (later.object other).descendants ↔
    new ∈ (m.object other).descendants ∨
      new = id ∧ ∃ parent ∈ parents, other = parent ∨ other ∈ (later.object parent).ancestors
  controllers : ∀ other new, new ∈ (later.object other).controllers ↔
    new ∈ (m.object other).controllers ∨ new = id ∧ other ∈ gates
  gates : ∀ gate ∈ gates, ∃ parent ∈ parents, ReflTransGen (Link later.parentIds) parent gate
  closed : ∀ other, other ∈ ancestors ↔
    ∃ parent ∈ parents, ReflTransGen (Link later.parentIds) parent other

/-- Placing and settling an entity leaves the sets that telling adds to. -/
theorem Placed.settle_sets {placed : Memory} {graph id : Nat} {parents : List Nat}
    (h : m.Placed placed graph id parents) (ancestors : List Nat) (other : Nat) :
    let settled := (placed.settle id parents ancestors).object other
    settled.children = (m.object other).children ∧
      settled.descendants = (m.object other).descendants ∧
      settled.controllers = (m.object other).controllers ∧
      settled.owners = (m.object other).owners := by
  obtain ⟨roleLabels, given?, rfl⟩ := h.eq_write
  simp only [settle, write]
  split <;> simp

/-- A registration that succeeds links its entity. -/
theorem linked_of_ok {names : List Nat} {depth id : Nat} {later : Memory}
    (hwithin : m.Within (id :: names)) (hdepth : names.length < depth) {graph : Nat}
    (h : m.registerWithin depth graph id = (.ok (), later)) :
    ∃ parents ancestors gates, m.accept graph id = .ok parents ∧
      m.Linked later graph id parents ancestors gates := by
  obtain ⟨parents, placed, ancestors, hplaced, hclosure, hid, rfl⟩ :=
    registerWithin_ok hwithin hdepth h
  have hkept := m.registerWithin_kept depth graph id
  rw [h] at hkept
  have hlinks := placed.parentIds_linked depth graph id parents ancestors
  have hself : (placed.settle id parents ancestors).object id =
      { placed.object id with
        ancestors
        required := ancestors.filter (placed.isRequired parents)
        level := 1 + (parents.map fun parent => (placed.object parent).level).foldl max 0
        nearestFirst := ancestors.mergeSort placed.isNearer } := if_pos rfl
  have hsets := hplaced.settle_sets ancestors
  refine ⟨parents, ancestors, placed.gatesOf depth parents, hplaced.accepted, ?_, fun other =>
    (hkept.labels other).1, ?_, ?_, ?_, ?_, fun gate => ?_, fun other hother => ?_,
    fun other new => ?_, fun other new => ?_, fun other new => ?_, ?_, fun other => ?_⟩
  · have hname : (placed.object id).name = (m.object id).name :=
      congrArg Name.text hplaced.object_self.2.1
    rw [entries_linked, hname, hplaced.entries]
  · rw [parents_linked, hplaced.object_self.1]
  · rw [linked_object, hself]
    rfl
  · rw [linked_object, hself]
    exact List.filter_subset_self _
  · rw [linked_object, hself]
    exact (List.mergeSort_perm _ _).subset
  · rw [linked_object, if_pos rfl, mem_foldl_withPlace, (hsets id).2.2.2]
  · rw [linked_object_of_ne hother, hplaced.object_of_ne hother]
    exact ⟨rfl, rfl, rfl⟩
  · rw [linked_object, ← (hsets other).1]
    exact mem_noted.trans (by rw [List.contains_iff_mem])
  · rw [linked_object, ← (hsets other).2.1]
    refine mem_noted.trans (or_congr_right (and_congr_right fun _ => ?_))
    rw [List.contains_iff_mem, mem_above]
    refine exists_congr fun parent => and_congr_right fun hparent => ?_
    have hne : parent ≠ id := fun heq => hid (heq ▸ hparent)
    rw [linked_object_of_ne hne]
    rfl
  · rw [linked_object, ← (hsets other).2.2.1]
    exact mem_noted.trans (by rw [List.contains_iff_mem])
  · intro gate hgate
    obtain ⟨parent, hparent, hgate⟩ := List.mem_flatMap.mp hgate
    refine ⟨parent, hparent, ?_⟩
    rw [hlinks]
    exact gates_forall (fun _ hreach _ hlink => hreach.tail hlink) .refl gate hgate
  · rw [hlinks]
    exact mem_closure_iff (hplaced.within hwithin) hdepth hclosure

namespace Consistent

/-- A graph that holds an entity holds its parents. -/
theorem holds_parent (hm : m.Consistent) {graph id parent : Nat} (h : m.holds graph id = true)
    (hparent : parent ∈ m.parentIds id) : m.holds graph parent = true := by
  obtain ⟨name, hentry⟩ := holds_iff.mp h
  obtain ⟨before, after, hsplit⟩ := List.append_of_mem hentry
  obtain ⟨⟨_, name', _⟩, hearlier, rfl, rfl⟩ :=
    hm.parents_first before _ after hsplit parent hparent
  refine holds_iff.mpr ⟨name', ?_⟩
  rw [hsplit]
  exact List.mem_append_left _ hearlier

theorem knows_parent (hm : m.Consistent) {id parent : Nat} (h : m.knows id = true)
    (hparent : parent ∈ m.parentIds id) : m.knows parent = true := by
  obtain ⟨graph, hholds⟩ := knows_iff.mp h
  exact knows_iff.mpr ⟨graph, hm.holds_parent hholds hparent⟩

/-- A graph that holds an entity holds what stands above it. -/
theorem holds_above (hm : m.Consistent) {graph id other : Nat} (h : m.holds graph id = true)
    (habove : m.Above id other) : m.holds graph other = true := by
  induction habove with
  | single hlink => exact hm.holds_parent h hlink
  | tail _ hlink ih => exact hm.holds_parent ih hlink

theorem knows_above (hm : m.Consistent) {id other : Nat} (h : m.knows id = true)
    (habove : m.Above id other) : m.knows other = true := by
  obtain ⟨graph, hholds⟩ := knows_iff.mp h
  exact knows_iff.mpr ⟨graph, hm.holds_above hholds habove⟩

/-- Where the parents of known entities stay, so does what stands above them. -/
theorem above_iff (hm : m.Consistent) {later : Memory}
    (hparents : ∀ id, m.knows id = true → later.parentIds id = m.parentIds id) {id other : Nat}
    (hid : m.knows id = true) : later.Above id other ↔ m.Above id other := by
  constructor
  · intro habove
    refine (transGen_of_agree (motive := fun id => m.knows id = true) ?_ hid habove).1
    intro known hknown parent hlink
    rw [Link, hparents known hknown] at hlink
    exact ⟨hlink, hm.knows_parent hknown hlink⟩
  · intro habove
    refine (transGen_of_agree (motive := fun id => m.knows id = true) ?_ hid habove).1
    intro known hknown parent hlink
    refine ⟨?_, hm.knows_parent hknown hlink⟩
    rw [Link, hparents known hknown]
    exact hlink

/-- What changes the roles of known entities at most, and unknown ones, keeps relations. -/
theorem of_same (hm : m.Consistent) {later : Memory} (hentries : later.entries = m.entries)
    (h : ∀ id, m.knows id = true → ∃ roleLabels given?,
      later.object id = { m.object id with roleLabels, given? }) : later.Consistent := by
  have hknows (id : Nat) : later.knows id = m.knows id := by rw [knows, knows, hentries]
  have hparents (id : Nat) (hid : m.knows id = true) : later.parentIds id = m.parentIds id := by
    obtain ⟨roleLabels, given?, heq⟩ := h id hid
    rw [parentIds, heq]
    rfl
  have hentry {entry : Entry} (hentry : entry ∈ m.entries) : m.knows entry.id = true :=
    knows_iff.mpr ⟨entry.graph, holds_iff.mpr ⟨entry.name, hentry⟩⟩
  constructor
  · rw [hentries]
    exact hm.names_nodup
  · intro entry hmem
    rw [hentries] at hmem
    obtain ⟨roleLabels, given?, heq⟩ := h entry.id (hentry hmem)
    rw [heq]
    exact hm.named entry hmem
  · intro id hid
    rw [hknows] at hid
    obtain ⟨roleLabels, given?, heq⟩ := h id hid
    rw [hparents id hid, heq]
    exact hm.parents id hid
  · intro before entry after hsplit parent hparent
    rw [hentries] at hsplit
    have hmem : entry ∈ m.entries := by
      rw [hsplit]
      exact List.mem_append_right _ List.mem_cons_self
    rw [hparents _ (hentry hmem)] at hparent
    exact hm.parents_first before entry after hsplit parent hparent
  · intro id hid
    rw [hknows] at hid
    rw [hm.above_iff hparents hid]
    exact hm.acyclic id hid
  · intro e he f hf
    rw [hknows] at he hf
    obtain ⟨roleLabels, given?, heq⟩ := h e he
    rw [heq, hparents f hf]
    exact hm.mem_children e he f hf
  · intro e he f
    rw [hknows] at he
    obtain ⟨roleLabels, given?, heq⟩ := h e he
    rw [heq, hm.above_iff hparents he]
    exact hm.mem_ancestors e he f
  · intro e he f hf
    rw [hknows] at he hf
    obtain ⟨roleLabels, given?, heq⟩ := h e he
    obtain ⟨roleLabels', given?', heq'⟩ := h f hf
    rw [heq, heq']
    exact hm.mem_descendants e he f hf
  · intro e he f hf
    rw [hknows] at he
    obtain ⟨roleLabels, given?, heq⟩ := h e he
    rw [heq] at hf
    rw [hm.above_iff hparents he]
    exact hm.uppers e he f hf
  · intro e he f hf
    rw [hknows] at he ⊢
    obtain ⟨roleLabels, given?, heq⟩ := h e he
    rw [heq] at hf
    obtain ⟨hknown, habove⟩ := hm.lowers e he f hf
    exact ⟨hknown, (hm.above_iff hparents hknown).mpr habove⟩

end Consistent

section

variable {later : Memory} {graph id : Nat} {parents ancestors gates : List Nat}

namespace Linked

theorem holds_iff (h : m.Linked later graph id parents ancestors gates) {graph' other : Nat} :
    later.holds graph' other = true ↔
      m.holds graph' other = true ∨ graph' = graph ∧ other = id := by
  simp only [holds, h.entries, List.any_append, Bool.or_eq_true, List.any_cons, List.any_nil,
    Bool.or_false, Bool.and_eq_true, decide_eq_true_eq]
  rw [@eq_comm _ graph, @eq_comm _ id]

theorem knows_iff (h : m.Linked later graph id parents ancestors gates) {other : Nat} :
    later.knows other = true ↔ m.knows other = true ∨ other = id := by
  simp only [knows, h.entries, List.any_append, Bool.or_eq_true, List.any_cons, List.any_nil,
    Bool.or_false, decide_eq_true_eq]
  rw [@eq_comm _ id]

theorem parentIds_self (h : m.Linked later graph id parents ancestors gates) :
    later.parentIds id = parents := parentIds_of_entities h.parents_self

/-- The parents of a known entity stay as they are, also if it is the one that is linked. -/
theorem parentIds_known (h : m.Linked later graph id parents ancestors gates)
    (hknown : m.knows id = true → m.parentIds id = parents) {other : Nat}
    (hother : m.knows other = true) : later.parentIds other = m.parentIds other := by
  by_cases heq : other = id
  · subst heq
    rw [h.parentIds_self, hknown hother]
  · rw [parentIds, parentIds, Object.listed, Object.listed, (h.others other heq).2.1]

/-- What stands above the entity that is linked is what the closure of its parents finds. -/
theorem above_self (h : m.Linked later graph id parents ancestors gates) (other : Nat) :
    later.Above id other ↔ other ∈ ancestors := by
  rw [h.closed, Above, TransGen.head'_iff]
  simp only [Link, h.parentIds_self]

end Linked

/-- A registration that succeeds where relations agree with the parent links. Its entity is new and
stands in no relation, or it is known and has the parents that it had. -/
structure Linking (m later : Memory) (graph id : Nat) (parents ancestors gates : List Nat) : Prop
    extends Linked m later graph id parents ancestors gates where
  consistent : m.Consistent
  accepted : m.accept graph id = .ok parents
  known : m.knows id = true → m.parentIds id = parents
  fresh : m.knows id = false → (m.object id).lowers = [] ∧ (m.object id).owners = []

namespace Linking

theorem knows_parent (h : m.Linking later graph id parents ancestors gates) {parent : Nat}
    (hparent : parent ∈ parents) : m.knows parent = true :=
  Memory.knows_iff.mpr ⟨graph, (accept_ok h.accepted).2.2 parent hparent⟩

/-- Above a known entity stands what stood there. -/
theorem above_iff (h : m.Linking later graph id parents ancestors gates) {other top : Nat}
    (hother : m.knows other = true) : later.Above other top ↔ m.Above other top :=
  h.consistent.above_iff (fun _ => h.parentIds_known h.known) hother

/-- What a parent reaches is the parent or stands above it. -/
theorem reaches_iff (h : m.Linking later graph id parents ancestors gates) {parent top : Nat}
    (hparent : parent ∈ parents) :
    ReflTransGen (Link later.parentIds) parent top ↔ top = parent ∨ m.Above parent top := by
  rw [Relation.reflTransGen_iff_eq_or_transGen]
  exact or_congr_right (h.above_iff (h.knows_parent hparent))

theorem knows_reached (h : m.Linking later graph id parents ancestors gates) {parent top : Nat}
    (hparent : parent ∈ parents) (htop : ReflTransGen (Link later.parentIds) parent top) :
    m.knows top = true := by
  rcases (h.reaches_iff hparent).mp htop with rfl | habove
  · exact h.knows_parent hparent
  · exact h.consistent.knows_above (h.knows_parent hparent) habove

/-- What is reached from a parent stands above the entity that is linked. -/
theorem above_of_reached (h : m.Linking later graph id parents ancestors gates) {parent top : Nat}
    (hparent : parent ∈ parents) (htop : ReflTransGen (Link later.parentIds) parent top) :
    later.Above id top :=
  (h.above_self top).mpr ((h.closed top).mpr ⟨parent, hparent, htop⟩)

/-- The entity that is linked is known before, or it is not among what stands below or owns it. -/
theorem mem_lowers (h : m.Linking later graph id parents ancestors gates) {other low : Nat}
    (hother : later.knows other = true) (hlow : low ∈ (m.object other).lowers) :
    m.knows other = true ∧ m.knows low = true ∧ later.Above low other := by
  have hknown : m.knows other = true := by
    rcases h.knows_iff.mp hother with hknown | rfl
    · exact hknown
    · by_contra hunknown
      rw [(h.fresh (by simpa using hunknown)).1] at hlow
      exact absurd hlow List.not_mem_nil
  obtain ⟨hlowKnown, habove⟩ := h.consistent.lowers other hknown low hlow
  exact ⟨hknown, hlowKnown, (h.above_iff hlowKnown).mpr habove⟩

theorem acyclic (h : m.Linking later graph id parents ancestors gates) (other : Nat)
    (hother : later.knows other = true) : ¬ later.Above other other := by
  intro hcycle
  by_cases hknown : m.knows other = true
  · exact h.consistent.acyclic other hknown ((h.above_iff hknown).mp hcycle)
  · obtain rfl := (h.knows_iff.mp hother).resolve_left hknown
    obtain ⟨parent, hparent, hreach⟩ := (h.closed _).mp ((h.above_self _).mp hcycle)
    exact hknown (h.knows_reached hparent hreach)

theorem mem_children (h : m.Linking later graph id parents ancestors gates) (e : Nat)
    (he : later.knows e = true) (f : Nat) (hf : later.knows f = true) :
    f ∈ (later.object e).children ↔ e ∈ later.parentIds f := by
  have hlow (hchild : f ∈ (m.object e).children) : f ∈ (m.object e).lowers := by
    simp [Object.lowers, hchild]
  rw [h.children]
  by_cases hknown : m.knows f = true
  · have hold : f ∈ (m.object e).children ↔ e ∈ later.parentIds f := by
      rw [h.parentIds_known h.known hknown]
      by_cases heKnown : m.knows e = true
      · exact h.consistent.mem_children e heKnown f hknown
      · exact iff_of_false (fun hchild => heKnown (h.mem_lowers he (hlow hchild)).1)
          fun hlink => heKnown (h.consistent.knows_parent hknown hlink)
    rw [hold]
    refine or_iff_left_of_imp ?_
    rintro ⟨rfl, hparent⟩
    rwa [h.parentIds_self]
  · obtain rfl := (h.knows_iff.mp hf).resolve_left hknown
    rw [h.parentIds_self, or_iff_right fun hchild => hknown (h.mem_lowers he (hlow hchild)).2.1]
    exact and_iff_right rfl

theorem mem_ancestors (h : m.Linking later graph id parents ancestors gates) (e : Nat)
    (he : later.knows e = true) (f : Nat) : f ∈ (later.object e).ancestors ↔ later.Above e f := by
  by_cases heq : e = id
  · subst heq
    rw [h.ancestors_self, h.above_self]
  · have hknown := (h.knows_iff.mp he).resolve_right heq
    rw [(h.others e heq).2.2, h.above_iff hknown]
    exact h.consistent.mem_ancestors e hknown f

theorem mem_descendants (h : m.Linking later graph id parents ancestors gates) (e : Nat)
    (he : later.knows e = true) (f : Nat) (hf : later.knows f = true) :
    f ∈ (later.object e).descendants ↔ e ∈ (later.object f).ancestors := by
  have hlow (hbelow : f ∈ (m.object e).descendants) : f ∈ (m.object e).lowers := by
    simp [Object.lowers, hbelow]
  -- the parents of the new entity and what stands above them are told of it
  have htold : (∃ parent ∈ parents, e = parent ∨ e ∈ (later.object parent).ancestors) ↔
      later.Above id e := by
    rw [h.above_self, h.closed]
    refine exists_congr fun parent => and_congr_right fun hparent => ?_
    have hparentKnown := h.knows_parent hparent
    rw [h.reaches_iff hparent, h.mem_ancestors parent (h.knows_iff.mpr (.inl hparentKnown)),
      h.above_iff hparentKnown]
  rw [h.descendants, htold, h.mem_ancestors f hf]
  constructor
  · rintro (hbelow | ⟨rfl, habove⟩)
    · exact (h.mem_lowers he (hlow hbelow)).2.2
    · exact habove
  · intro habove
    by_cases heq : f = id
    · exact .inr ⟨heq, heq ▸ habove⟩
    · have hknown := (h.knows_iff.mp hf).resolve_right heq
      have habove := (h.above_iff hknown).mp habove
      refine .inl ((h.consistent.mem_descendants e (h.consistent.knows_above hknown habove) f
        hknown).mpr ((h.consistent.mem_ancestors f hknown e).mpr habove))

theorem uppers (h : m.Linking later graph id parents ancestors gates) (e : Nat)
    (he : later.knows e = true) : ∀ f ∈ (later.object e).uppers, later.Above e f := by
  intro f hf
  by_cases heq : e = id
  · subst heq
    have hparents : (later.object e).parents.filterMap Item.id? = parents := by
      rw [h.parents_self, List.filterMap_map]
      exact List.filterMap_some
    simp only [Object.uppers, hparents, h.ancestors_self, List.mem_append, h.owners_self] at hf
    rcases hf with (((hf | hf) | hf) | hf | hf) | hf
    · exact h.above_of_reached hf .refl
    · exact (h.above_self f).mpr hf
    · exact (h.above_self f).mpr (h.required_self hf)
    · by_cases hknown : m.knows e = true
      · exact (h.above_iff hknown).mpr (h.consistent.uppers e hknown f (by simp [Object.uppers, hf]))
      · rw [(h.fresh (by simpa using hknown)).2] at hf
        exact absurd hf List.not_mem_nil
    · obtain ⟨parent, hparent, hreach⟩ := h.gates f hf
      exact h.above_of_reached hparent hreach
    · exact (h.above_self f).mpr (h.nearestFirst_self hf)
  · have hknown := (h.knows_iff.mp he).resolve_right heq
    rw [(h.others e heq).1] at hf
    exact (h.above_iff hknown).mpr (h.consistent.uppers e hknown f hf)

theorem lowers (h : m.Linking later graph id parents ancestors gates) (e : Nat)
    (he : later.knows e = true) : ∀ f ∈ (later.object e).lowers,
      later.knows f = true ∧ later.Above f e := by
  intro f hf
  have hcases : f ∈ (m.object e).lowers ∨ f = id ∧ later.Above id e := by
    simp only [Object.lowers, List.mem_append, h.children, h.controllers] at hf ⊢
    rcases hf with ((hf | ⟨rfl, hparent⟩) | hf) | hf | ⟨rfl, hgate⟩
    · exact .inl (.inl (.inl hf))
    · exact .inr ⟨rfl, h.above_of_reached hparent .refl⟩
    · rcases (h.descendants e f).mp hf with hf | ⟨rfl, htold⟩
      · exact .inl (.inl (.inr hf))
      · refine .inr ⟨rfl, ?_⟩
        rw [← h.mem_ancestors f (h.knows_iff.mpr (.inr rfl)),
          ← h.mem_descendants e he f (h.knows_iff.mpr (.inr rfl))]
        exact hf
    · exact .inl (.inr hf)
    · obtain ⟨parent, hparent, hreach⟩ := h.gates e hgate
      exact .inr ⟨rfl, h.above_of_reached hparent hreach⟩
  rcases hcases with hlow | ⟨rfl, habove⟩
  · obtain ⟨-, hknown, habove⟩ := h.mem_lowers he hlow
    exact ⟨h.knows_iff.mpr (.inl hknown), habove⟩
  · exact ⟨h.knows_iff.mpr (.inr rfl), habove⟩

/-- A registration that succeeds keeps relations in agreement with the parent links. -/
theorem consistent_later (h : m.Linking later graph id parents ancestors gates) :
    later.Consistent := by
  obtain ⟨hfree, hnodup, hheld⟩ := accept_ok h.accepted
  refine ⟨?_, ?_, fun other hother => ?_, ?_, h.acyclic, h.mem_children, h.mem_ancestors,
    h.mem_descendants, h.uppers, h.lowers⟩
  · rw [h.entries, List.map_append, List.nodup_append]
    refine ⟨h.consistent.names_nodup, List.nodup_singleton _, fun taken htaken new hnew => ?_⟩
    obtain ⟨entry, hentry, rfl⟩ := List.mem_map.mp htaken
    obtain rfl := List.mem_singleton.mp hnew
    intro heq
    obtain ⟨hgraph, hname⟩ := Prod.mk.inj heq
    rw [find?, Option.map_eq_none_iff, List.find?_eq_none] at hfree
    exact hfree entry hentry (by simp [hgraph, hname])
  · intro entry hentry
    have hname : (later.object entry.id).name = (m.object entry.id).name :=
      congrArg Name.text (h.labels entry.id)
    rw [h.entries, List.mem_append, List.mem_singleton] at hentry
    rw [hname]
    rcases hentry with hentry | rfl
    · exact h.consistent.named entry hentry
    · rfl
  · by_cases heq : other = id
    · subst heq
      rw [h.parentIds_self]
      exact ⟨h.parents_self, hnodup⟩
    · have hknown := (h.knows_iff.mp hother).resolve_right heq
      rw [h.parentIds_known h.known hknown, (h.others other heq).2.1]
      exact h.consistent.parents other hknown
  · intro before entry after hsplit parent hparent
    rw [h.entries] at hsplit
    rcases List.eq_nil_or_concat after with rfl | ⟨earlier, last, rfl⟩
    · obtain ⟨rfl, hlast⟩ := List.append_inj' hsplit rfl
      obtain rfl := List.singleton_inj.mp hlast
      rw [h.parentIds_self] at hparent
      obtain ⟨name, hentry⟩ := holds_iff.mp (hheld parent hparent)
      exact ⟨_, hentry, rfl, rfl⟩
    · rw [List.concat_eq_append, ← List.cons_append, ← List.append_assoc] at hsplit
      obtain ⟨hentries, -⟩ := List.append_inj' hsplit rfl
      have hentry : entry ∈ m.entries := by
        rw [hentries]
        exact List.mem_append_right _ List.mem_cons_self
      have hknown : m.knows entry.id = true :=
        Memory.knows_iff.mpr ⟨entry.graph, holds_iff.mpr ⟨entry.name, hentry⟩⟩
      rw [h.parentIds_known h.known hknown] at hparent
      exact h.consistent.parents_first before entry earlier hentries parent hparent

end Linking

end

/-- A known entity is accepted with the parents that it has. -/
theorem Consistent.parents_of_accept (hm : m.Consistent) {graph id : Nat} {parents : List Nat}
    (hid : m.knows id = true) (h : m.accept graph id = .ok parents) : m.parentIds id = parents := by
  obtain ⟨hparents, hnodup⟩ := hm.parents id hid
  rw [accept] at h
  split at h
  · cases h
  · obtain ⟨found, hfound, rfl⟩ := Outcome.map_eq_ok.mp h
    have himage : found = (m.object id).parents.map fun item => (item.id?.getD 0) := by
      refine Outcome.eq_map_of_mapM_eq_ok (fun item hitem result hresult => ?_) hfound
      rw [hparents] at hitem
      obtain ⟨parent, -, rfl⟩ := List.mem_map.mp hitem
      rw [resolve] at hresult
      split at hresult
      · exact (Except.ok.inj hresult).symm
      · cases hresult
    have hfound : found = m.parentIds id := by
      rw [himage, hparents, List.map_map]
      exact List.map_id _
    rw [hfound, eraseDups_of_nodup hnodup]

/-- A registration keeps relations in agreement with the parent links, failed or not. -/
theorem Consistent.registerWithin (hm : m.Consistent) (hsound : m.Sound) (names : List Nat)
    {depth id : Nat} (hwithin : m.Within (id :: names)) (hdepth : names.length < depth)
    (hfresh : m.knows id = false → (m.object id).lowers = [] ∧ (m.object id).owners = [])
    (graph : Nat) : (m.registerWithin depth graph id).2.Consistent := by
  cases hran : m.registerWithin depth graph id with
  | mk outcome later =>
    obtain error | ⟨⟩ := outcome
    · have houtcome := registerWithin_outcome hwithin hdepth graph
      rw [hran] at houtcome
      rcases houtcome with ⟨-, -, rfl | ⟨parents, hplaced⟩⟩ | ⟨hextended, hok | ⟨-, -, habove⟩⟩
      · exact hm
      · refine hm.of_same hplaced.entries fun other hother => ?_
        by_cases heq : other = id
        · subst heq
          obtain ⟨roleLabels, given?, hwritten⟩ := hplaced.eq_write
          have hparents := (hm.parents other hother).1
          rw [hm.parents_of_accept hother hplaced.accepted] at hparents
          refine ⟨roleLabels, given?, ?_⟩
          change later = _ at hwritten
          rw [hwritten, ← hparents]
          exact if_pos rfl
        · exact ⟨_, _, hplaced.object_of_ne heq⟩
      · cases hok
      · exact absurd habove (hsound.not_nullAbove hextended)
    · obtain ⟨parents, ancestors, gates, haccept, hlinked⟩ := linked_of_ok hwithin hdepth hran
      exact Linking.consistent_later
        ⟨hlinked, hm, haccept, fun hid => hm.parents_of_accept hid haccept, hfresh⟩

/-- An attempt keeps relations in agreement with the parent links, failed or not. -/
theorem Consistent.attempt (hm : m.Consistent) (hsized : m.Sized) (hsound : m.Sound) (graph : Nat)
    {a : Attempt} (hknown : ∀ id, a = .again (.entity id) → m.knows id = true) :
    (m.attempt graph a).2.Consistent := by
  have hlength : (List.range m.size).length < m.size + 1 := by
    rw [List.length_range]
    exact Nat.lt_succ_self _
  rcases a with r | (id | v)
  · rw [Memory.attempt, attemptWithin]
    cases hcreate : create r with
    | error error => exact hm
    | ok o =>
      obtain ⟨label, given?, parents, -, -, rfl⟩ := create_ok hcreate
      have hconsistent : (m.make { label, kind := r.kind, given?, parents }).Consistent := by
        refine hm.of_same rfl fun id hid => ⟨(m.object id).roleLabels, (m.object id).given?, ?_⟩
        exact if_neg (Nat.ne_of_lt (hsized.lt_of_knows hid))
      refine hconsistent.registerWithin (hsound.make hsized _) (List.range m.size) ?_ hlength
        (fun _ => ?_) graph
      · refine ((hsized.make _).within).mono fun other hother => ?_
        rw [List.mem_range] at hother
        rw [List.mem_cons, List.mem_range]
        exact (Nat.lt_succ_iff_lt_or_eq.mp hother).symm
      · have hobject : (m.make { label, kind := r.kind, given?, parents }).object m.size =
            { label, kind := r.kind, given?, parents } := if_pos rfl
        rw [hobject]
        exact ⟨rfl, rfl⟩
  · refine hm.registerWithin hsound _ (hsized.within.mono (List.subset_cons_self id _)) hlength
      (fun hunknown => ?_) graph
    rw [hknown id rfl] at hunknown
    cases hunknown
  · exact hm

theorem consistent_empty : Consistent {} where
  names_nodup := List.nodup_nil
  named := nofun
  parents := nofun
  parents_first before entry after h := absurd h (by simp)
  acyclic := nofun
  mem_children := nofun
  mem_ancestors := nofun
  mem_descendants := nofun
  uppers := nofun
  lowers := nofun

/-- Attempts at registrations keep relations in agreement with the parent links. -/
theorem consistent_afterAll {events : List Event} (h : ∀ event ∈ events, event.isAttempt = true) :
    (({} : Memory).afterAll events).Consistent := by
  suffices hrun : ∀ m : Memory, m.Sized → m.Sound → m.Consistent → (m.afterAll events).Consistent from
    hrun {} sized_empty sound_empty consistent_empty
  induction events with
  | nil => exact fun _ _ _ hm => hm
  | cons event rest ih =>
    obtain ⟨hevent, hrest⟩ := List.forall_mem_cons.mp h
    cases event with
    | assignParents id parents => contradiction
    | rename id label => contradiction
    | attempt graph a =>
      refine fun m hsized hsound hm =>
        ih hrest _ (hsized.after _) (hsound.after hsized rfl) ?_
      unfold after
      split
      · rename_i hids
        refine hm.attempt hsized hsound graph ?_
        rintro id rfl
        exact List.all_eq_true.mp hids id (by simp [Event.ids, Item.id?])
      · exact hm

/-- A graph shares no entity with another one. -/
def Alone (m : Memory) (graph : Nat) : Prop :=
  ∀ id, m.holds graph id = true → ∀ other, m.holds other id = true → other = graph

/-- A graph holds what stands above what it holds, related entities are held by the same graph, and a
graph that shares no entity with another one holds every entity that is related to one of its own. -/
structure Together (m : Memory) : Prop where
  uppers : ∀ graph e, m.holds graph e = true → ∀ f ∈ (m.object e).uppers, m.holds graph f = true
  related : ∀ e, m.knows e = true → ∀ f ∈ (m.object e).uppers ++ (m.object e).lowers,
    ∃ graph, m.holds graph e = true ∧ m.holds graph f = true
  alone : ∀ graph, m.Alone graph → ∀ e, m.holds graph e = true →
    ∀ f ∈ (m.object e).uppers ++ (m.object e).lowers, m.holds graph f = true

/-- Where relations agree with the parent links, graphs hold related entities together. -/
theorem Consistent.together (hm : m.Consistent) : m.Together := by
  have hupper (graph e : Nat) (he : m.holds graph e = true) (f : Nat)
      (hf : f ∈ (m.object e).uppers) : m.holds graph f = true :=
    hm.holds_above he (hm.uppers e (knows_iff.mpr ⟨graph, he⟩) f hf)
  have hrelated (e : Nat) (he : m.knows e = true) (f : Nat)
      (hf : f ∈ (m.object e).uppers ++ (m.object e).lowers) :
      ∃ graph, m.holds graph e = true ∧ m.holds graph f = true := by
    rcases List.mem_append.mp hf with hf | hf
    · obtain ⟨graph, hholds⟩ := knows_iff.mp he
      exact ⟨graph, hholds, hupper graph e hholds f hf⟩
    · obtain ⟨hknown, habove⟩ := hm.lowers e he f hf
      obtain ⟨graph, hholds⟩ := knows_iff.mp hknown
      exact ⟨graph, hm.holds_above hholds habove, hholds⟩
  refine ⟨hupper, hrelated, fun graph halone e he f hf => ?_⟩
  obtain ⟨other, hother, hholds⟩ := hrelated e (knows_iff.mpr ⟨graph, he⟩) f hf
  exact halone e he other hother ▸ hholds

end Memory

end AccessMatrix
