import AccessMatrix.Proofs.Distinct
import AccessMatrix.Proofs.Memory.Climbing
import Mathlib.Data.List.TakeWhile

/-!
# Attempts at a registration

What an attempt leaves, failed or not, in whatever state the memory is. Up to the point where the graph
holds the entity, an attempt writes to this entity alone. From then on it tells other entities, and
this fails only where a null stands among the parents of an entity above.
-/

namespace AccessMatrix.Memory

open AccessMatrix.Graph (Link Ends)
open Outcome
open Relation (ReflTransGen TransGen)

variable {m : Memory}

/-- What a graph holds under a name it holds. -/
theorem mem_of_find? {graph id : Nat} {name : String} (h : m.find? graph name = some id) :
    ⟨graph, name, id⟩ ∈ m.entries := by
  obtain ⟨entry, hfind, rfl⟩ := Option.map_eq_some_iff.mp h
  have hentry := List.find?_some hfind
  obtain ⟨rfl, rfl⟩ : entry.graph = graph ∧ entry.name = name := by simpa using hentry
  exact List.mem_of_find?_eq_some hfind

theorem holds_iff {graph id : Nat} :
    m.holds graph id = true ↔ ∃ name, ⟨graph, name, id⟩ ∈ m.entries := by
  simp only [holds, List.any_eq_true, Bool.and_eq_true, decide_eq_true_eq]
  constructor
  · rintro ⟨⟨_, name, _⟩, hentry, rfl, rfl⟩
    exact ⟨name, hentry⟩
  · rintro ⟨name, hentry⟩
    exact ⟨_, hentry, rfl, rfl⟩

theorem knows_iff {id : Nat} : m.knows id = true ↔ ∃ graph, m.holds graph id = true := by
  simp only [holds_iff, knows, List.any_eq_true, decide_eq_true_eq]
  constructor
  · rintro ⟨⟨graph, name, _⟩, hentry, rfl⟩
    exact ⟨graph, name, hentry⟩
  · rintro ⟨graph, name, hentry⟩
    exact ⟨_, hentry, rfl⟩

/-- A parent that is resolved is held by the graph, and under its name if it was given itself. -/
theorem resolve_ok {graph id : Nat} {child : Name} {item : Item}
    (h : m.resolve graph child item = .ok id) : ∃ name, m.find? graph name = some id := by
  cases item with
  | entity other =>
    rw [resolve] at h
    split at h
    · rename_i hfind
      obtain rfl := Except.ok.inj h
      exact ⟨_, hfind⟩
    · cases h
  | value v =>
    rw [resolve] at h
    split at h
    · rename_i found hfind
      obtain rfl := Except.ok.inj h
      obtain ⟨name, -, hfind⟩ := Option.bind_eq_some_iff.mp hfind
      exact ⟨name, hfind⟩
    · cases h

/-- An entity that a graph accepts has a free name there, and parents that the graph holds. -/
theorem accept_ok {graph id : Nat} {parents : List Nat} (h : m.accept graph id = .ok parents) :
    m.find? graph (m.object id).name = none ∧ parents.Nodup ∧
      ∀ parent ∈ parents, m.holds graph parent = true := by
  rw [accept] at h
  split at h
  · cases h
  · rename_i hfree
    obtain ⟨found, hfound, rfl⟩ := map_eq_ok.mp h
    refine ⟨by simpa using hfree, nodup_eraseDups found, fun parent hparent => ?_⟩
    obtain ⟨item, -, hitem⟩ := exists_of_mem_mapM hfound parent (List.mem_eraseDups.mp hparent)
    obtain ⟨name, hfind⟩ := resolve_ok hitem
    exact holds_iff.mpr ⟨name, mem_of_find? hfind⟩

/-- A memory in which an entity was accepted by a graph and nothing else was written than its parents,
each once, and the roles of a context whose roles had not been checked. -/
structure Placed (m placed : Memory) (graph id : Nat) (parents : List Nat) : Prop where
  accepted : m.accept graph id = .ok parents
  written : placed = m.assignParents id (parents.map .entity) ∧ (m.object id).isContext = false ∨
    (m.object id).given?.isSome ∧ ∃ roleLabels, placed =
      m.write id ({ · with parents := parents.map .entity, roleLabels, given? := none })

theorem placed_of_validate {checked : Memory} {graph id : Nat} {parents : List Nat}
    (haccept : m.accept graph id = .ok parents) (h : m.validate id = .ok checked) :
    m.Placed (checked.assignParents id (parents.map .entity)) graph id parents := by
  refine ⟨haccept, ?_⟩
  rw [validate] at h
  split at h
  · split at h
    · cases h
    · rename_i given hgiven
      obtain ⟨roleLabels, -, rfl⟩ := map_eq_ok.mp h
      refine .inr ⟨by rw [hgiven]; rfl, roleLabels, Memory.ext rfl (funext fun other => ?_) rfl⟩
      simp only [assignParents, write]
      split <;> rfl
  · rename_i hcontext
    obtain rfl := Except.ok.inj h
    exact .inl ⟨rfl, by simpa using hcontext⟩

/-- What an attempt that finds its entity comes to: it fails and writes nothing, or writes to this
entity alone and then fails, or goes on to tell the entities above it. -/
theorem registerWithin_cases (m : Memory) (depth graph id : Nat) :
    (∃ error, m.registerWithin depth graph id = (.error error, m)) ∨
      ∃ parents placed, m.Placed placed graph id parents ∧
        ((∃ error, m.registerWithin depth graph id = (.error error, placed)) ∨
          ∃ ancestors, placed.closure depth parents = .ok ancestors ∧
            m.registerWithin depth graph id =
              ((placed.settle id parents ancestors).enter graph id).tellAll depth id parents) := by
  rw [registerWithin]
  cases haccept : m.accept graph id with
  | error error => exact .inl ⟨error, rfl⟩
  | ok parents =>
    cases hvalidate : m.validate id with
    | error error => exact .inl ⟨error, rfl⟩
    | ok checked =>
      refine .inr ⟨parents, _, placed_of_validate haccept hvalidate, ?_⟩
      dsimp only
      cases (checked.assignParents id (parents.map .entity)).closure depth parents with
      | error error => exact .inl ⟨error, rfl⟩
      | ok ancestors => exact .inr ⟨ancestors, rfl, rfl⟩

/-- What an attempt that writes to its entity alone leaves: graphs hold what they held, all other
entities are as they were, and so is this one, unless the graph accepts it; then its parents are written,
each once, and the roles of a context whose roles had not been checked. -/
structure Refused (m later : Memory) (graph subject : Nat) : Prop where
  entries : later.entries = m.entries
  others : ∀ id ≠ subject, later.object id = m.object id
  subject : subject ≠ m.size → later = m ∨ ∃ parents, m.Placed later graph subject parents

/-- What an attempt that gets past its checks leaves: the graph holds the entity last and under a name
that it did not hold, all other entities are as they were, but for the place of this one among their
children, their descendants and the entities that they gate, and no way up from its parents goes on for
ever. -/
structure Extended (m later : Memory) (graph subject : Nat) : Prop where
  entries : later.entries = m.entries ++ [⟨graph, (later.object subject).name, subject⟩]
  free : m.find? graph (later.object subject).name = none
  others : ∀ id ≠ subject, ∃ child below gated,
    later.object id = (m.object id).noting subject child below gated
  parents : ∃ parents : List Nat, (later.object subject).parents = parents.map .entity ∧ parents.Nodup ∧
    ∀ parent ∈ parents, m.holds graph parent = true ∧ Ends later.parentIds parent

/-- Above an entity there is one that is no context and has a null among its parents. -/
def NullAbove (m : Memory) (subject : Nat) : Prop :=
  ∃ other, TransGen (Link m.parentIds) subject other ∧ (m.object other).isContext = false ∧
    ∃ item ∈ (m.object other).parents, item.isNull = true

namespace Placed

variable {placed : Memory} {graph id : Nat} {parents : List Nat}

/-- An entity was placed by a single write. -/
theorem eq_write (h : m.Placed placed graph id parents) : ∃ roleLabels given?,
    placed = m.write id ({ · with parents := parents.map .entity, roleLabels, given? }) := by
  rcases h.written with ⟨rfl, -⟩ | ⟨-, roleLabels, rfl⟩
  · refine ⟨(m.object id).roleLabels, (m.object id).given?, Memory.ext rfl (funext fun other => ?_) rfl⟩
    simp only [assignParents, write]
    split
    · rename_i heq
      rw [heq]
    · rfl
  · exact ⟨roleLabels, none, rfl⟩

theorem entries (h : m.Placed placed graph id parents) : placed.entries = m.entries := by
  obtain ⟨_, _, rfl⟩ := h.eq_write
  rfl

theorem size (h : m.Placed placed graph id parents) : placed.size = m.size := by
  obtain ⟨_, _, rfl⟩ := h.eq_write
  rfl

theorem object_of_ne (h : m.Placed placed graph id parents) {other : Nat} (hother : other ≠ id) :
    placed.object other = m.object other := by
  obtain ⟨_, _, rfl⟩ := h.eq_write
  exact if_neg hother

theorem object_self (h : m.Placed placed graph id parents) :
    (placed.object id).parents = parents.map .entity ∧
      (placed.object id).label = (m.object id).label ∧
      (placed.object id).kind = (m.object id).kind := by
  obtain ⟨_, _, rfl⟩ := h.eq_write
  simp [write]

theorem within (h : m.Placed placed graph id parents) {names : List Nat}
    (hm : m.Within (id :: names)) : placed.Within (id :: names) := by
  intro other hother
  rw [h.object_of_ne (List.ne_of_not_mem_cons hother)]
  exact hm other hother

end Placed

/-- Settling an entity writes to it alone, and neither its label nor its kind nor its parents. -/
theorem settle_object (m : Memory) (id : Nat) (parents ancestors : List Nat) (other : Nat) :
    (other ≠ id → (m.settle id parents ancestors).object other = m.object other) ∧
      ((m.settle id parents ancestors).object other).label = (m.object other).label ∧
      ((m.settle id parents ancestors).object other).kind = (m.object other).kind ∧
      ((m.settle id parents ancestors).object other).parents = (m.object other).parents := by
  simp only [settle, write]
  split
  · rename_i heq
    exact ⟨fun hne => absurd heq hne, rfl, rfl, rfl⟩
  · exact ⟨fun _ => rfl, rfl, rfl, rfl⟩

/-- Settling an entity and entering it in a graph does not change which contexts gate a branch. -/
theorem gates_settled (m : Memory) (graph id : Nat) (parents ancestors : List Nat) :
    ((m.settle id parents ancestors).enter graph id).gates = m.gates := by
  refine gates_congr fun other => ?_
  obtain ⟨-, -, hkind, hparents⟩ := m.settle_object id parents ancestors other
  refine ⟨?_, hparents⟩
  rw [Object.isContext, Object.isContext, ← hkind]
  rfl

/-- The parents that are gone through depend on the parents of objects alone. -/
theorem parentIds_congr {m' : Memory} (h : ∀ id, (m'.object id).parents = (m.object id).parents) :
    m'.parentIds = m.parentIds := by
  refine funext fun id => ?_
  rw [parentIds, parentIds, Object.listed, Object.listed, h id]

theorem parentIds_of_entities {id : Nat} {parents : List Nat}
    (h : (m.object id).parents = parents.map .entity) : m.parentIds id = parents := by
  have hlisted : (m.object id).listed = parents.map .entity := by
    rw [Object.listed, h, List.takeWhile_eq_self_iff]
    intro item hitem
    obtain ⟨parent, -, rfl⟩ := List.mem_map.mp hitem
    rfl
  rw [parentIds, hlisted, List.filterMap_map]
  exact List.filterMap_some

/-- Where the parents above can be gone through, telling an entity's parents fails only if nothing at
all stands among those of an entity above. -/
theorem nullAbove_of_tellAll_error {later : Memory} {depth id : Nat} {parents : List Nat}
    {error : Error} (hparents : (m.object id).parents = parents.map .entity)
    (hclean : ∀ parent ∈ parents, ∀ other,
      ReflTransGen (Link m.parentIds) parent other → m.Clean other)
    (h : m.tellAll depth id parents = (.error error, later)) : later.NullAbove id := by
  have htold := m.told_tellAll depth id parents
  rw [h] at htold
  have hkept (other : Nat) := (htold.kept other).2
  obtain ⟨parent, hparent, hfails⟩ := exists_of_tellAll_error h
  obtain ⟨other, hreach, hcontext, item, hitem, hnone⟩ :=
    exists_of_gates_error (hclean parent hparent) hfails
  have hlink : Link m.parentIds id parent := by
    rw [Link, parentIds_of_entities hparents]
    exact hparent
  refine ⟨other, ?_, ?_, item, (hkept other).2.symm ▸ hitem, hnone⟩
  · rw [parentIds_congr fun other => (hkept other).2]
    exact .head' hlink hreach
  · rw [Object.isContext, (hkept other).1]
    exact hcontext

/-- The memory in which a graph has taken in an entity, with all that follows from its parents. -/
def linked (m : Memory) (depth graph id : Nat) (parents ancestors : List Nat) : Memory :=
  (((m.settle id parents ancestors).enter graph id).noting id parents (m.above parents)
    (m.gatesOf depth parents)).owned id (m.gatesOf depth parents)

theorem linked_object (m : Memory) (depth graph id : Nat) (parents ancestors : List Nat)
    (other : Nat) :
    (m.linked depth graph id parents ancestors).object other =
      { ((m.settle id parents ancestors).object other).noting id (parents.contains other)
          ((m.above parents).contains other) ((m.gatesOf depth parents).contains other) with
        owners := if other = id then
            (m.gatesOf depth parents).foldl withPlace
              ((m.settle id parents ancestors).object other).owners
          else ((m.settle id parents ancestors).object other).owners } :=
  object_told _ _ _ _ _ _

theorem linked_object_of_ne {depth graph id : Nat} {parents ancestors : List Nat} {other : Nat}
    (hother : other ≠ id) :
    (m.linked depth graph id parents ancestors).object other =
      (m.object other).noting id (parents.contains other) ((m.above parents).contains other)
        ((m.gatesOf depth parents).contains other) := by
  rw [linked_object, if_neg hother, (m.settle_object id parents ancestors other).1 hother]
  rfl

/-- Taking in an entity leaves the parents of all. -/
theorem parents_linked (m : Memory) (depth graph id : Nat) (parents ancestors : List Nat)
    (other : Nat) :
    ((m.linked depth graph id parents ancestors).object other).parents =
      (m.object other).parents := by
  rw [linked_object]
  exact (m.settle_object id parents ancestors other).2.2.2

theorem parentIds_linked (m : Memory) (depth graph id : Nat) (parents ancestors : List Nat) :
    (m.linked depth graph id parents ancestors).parentIds = m.parentIds :=
  parentIds_congr (m.parents_linked depth graph id parents ancestors)

theorem entries_linked (m : Memory) (depth graph id : Nat) (parents ancestors : List Nat) :
    (m.linked depth graph id parents ancestors).entries =
      m.entries ++ [⟨graph, (m.object id).name, id⟩] := by
  have hname : ((m.settle id parents ancestors).object id).name = (m.object id).name :=
    congrArg Name.text (m.settle_object id parents ancestors id).2.1
  rw [← hname]
  rfl

/-- An entity that is not its own parent is taken in when all its parents are told. -/
theorem linked_of_tellAll {depth graph id : Nat} {parents ancestors : List Nat} {later : Memory}
    (hid : id ∉ parents)
    (h : ((m.settle id parents ancestors).enter graph id).tellAll depth id parents =
      (.ok (), later)) :
    later = m.linked depth graph id parents ancestors := by
  have hgates := m.gates_settled graph id parents ancestors
  have habove : ((m.settle id parents ancestors).enter graph id).above parents =
      m.above parents := by
    refine List.flatMap_congr fun parent hparent => ?_
    have hne : parent ≠ id := fun heq => hid (heq ▸ hparent)
    exact congrArg (fun o : Object => parent :: o.ancestors)
      ((m.settle_object id parents ancestors parent).1 hne)
  rw [tellAll_ok h, habove, gatesOf, hgates]
  rfl

/-- A registration that succeeds takes its entity in, and no way up from its parents leads back. -/
theorem registerWithin_ok {names : List Nat} {depth id : Nat} {later : Memory}
    (hwithin : m.Within (id :: names)) (hdepth : names.length < depth) {graph : Nat}
    (h : m.registerWithin depth graph id = (.ok (), later)) :
    ∃ parents placed ancestors, m.Placed placed graph id parents ∧
      placed.closure depth parents = .ok ancestors ∧ id ∉ parents ∧
      later = placed.linked depth graph id parents ancestors := by
  rcases m.registerWithin_cases depth graph id with
    ⟨error, hran⟩ | ⟨parents, placed, hplaced, ⟨error, hran⟩ | ⟨ancestors, hclosure, hran⟩⟩
  · exact absurd (hran.symm.trans h) nofun
  · exact absurd (hran.symm.trans h) nofun
  · have hid : id ∉ parents := by
      intro hid
      have hwithin' := hplaced.within hwithin
      have hends := (ends_of_closure hwithin' hdepth hclosure
        ((mem_closure_iff hwithin' hdepth hclosure).mpr ⟨id, hid, .refl⟩)).1
      refine hends.not_above_self (.single ?_)
      rwa [Link, parentIds_of_entities hplaced.object_self.1]
    exact ⟨parents, placed, ancestors, hplaced, hclosure, hid,
      linked_of_tellAll hid (hran.symm.trans h)⟩

/-- What comes of a registration: it fails and writes to its entity alone, or the graph holds the
entity and others are told, which can fail only where a null stands among the parents of an entity
above. -/
theorem registerWithin_outcome {names : List Nat} {depth id : Nat} (hwithin : m.Within (id :: names))
    (hdepth : names.length < depth) (graph : Nat) :
    let ran := m.registerWithin depth graph id
    (∃ error, ran.1 = .error error ∧
      (ran.2 = m ∨ ∃ parents, m.Placed ran.2 graph id parents)) ∨
    (m.Extended ran.2 graph id ∧
      (ran.1 = .ok () ∨ ∃ error, ran.1 = .error error ∧ ran.2.NullAbove id)) := by
  rcases m.registerWithin_cases depth graph id with
    ⟨error, hran⟩ | ⟨parents, placed, hplaced, ⟨error, hran⟩ | ⟨ancestors, hclosure, hran⟩⟩
  · rw [hran]
    exact .inl ⟨error, rfl, .inl rfl⟩
  · rw [hran]
    exact .inl ⟨error, rfl, .inr ⟨parents, hplaced⟩⟩
  · rw [hran]
    have hsettled := placed.settle_object id parents ancestors
    have htold := ((placed.settle id parents ancestors).enter graph id).told_tellAll depth id parents
    obtain ⟨hfree, hnodup, hheld⟩ := accept_ok hplaced.accepted
    obtain ⟨hown, hlabel, -⟩ := hplaced.object_self
    have hname : ((placed.settle id parents ancestors).object id).name = (m.object id).name :=
      congrArg Name.text ((hsettled id).2.1.trans hlabel)
    generalize hlater : ((placed.settle id parents ancestors).enter graph id).tellAll depth id
      parents = ran at htold
    have hname' : (ran.2.object id).name = (m.object id).name :=
      (congrArg Name.text (htold.kept id).1).trans hname
    have hparents (other : Nat) :
        (ran.2.object other).parents = (placed.object other).parents :=
      (htold.kept other).2.2.trans (hsettled other).2.2.2
    have hlinks : ran.2.parentIds = placed.parentIds := parentIds_congr hparents
    have hwithin' : placed.Within (id :: names) := hplaced.within hwithin
    have hreached (parent : Nat) (hparent : parent ∈ parents) (other : Nat)
        (hreach : ReflTransGen (Link placed.parentIds) parent other) :
        Ends placed.parentIds other ∧ placed.Clean other :=
      ends_of_closure hwithin' hdepth hclosure
        ((mem_closure_iff hwithin' hdepth hclosure).mpr ⟨parent, hparent, hreach⟩)
    refine .inr ⟨⟨?_, ?_, fun other hother => ?_, parents, ?_, hnodup, fun parent hparent => ?_⟩, ?_⟩
    · have hentries : ran.2.entries = placed.entries ++
          [⟨graph, ((placed.settle id parents ancestors).object id).name, id⟩] := htold.entries
      rw [hentries, hplaced.entries, hname, hname']
    · rw [hname']
      exact hfree
    · obtain ⟨child, below, gated, heq⟩ := htold.others other hother
      exact ⟨child, below, gated, by
        rw [heq, ← hplaced.object_of_ne hother, ← (hsettled other).1 hother]
        rfl⟩
    · rw [hparents, hown]
    · rw [hlinks]
      exact ⟨hheld parent hparent, (hreached parent hparent parent .refl).1⟩
    · obtain ⟨error | ⟨⟩, later⟩ := ran
      · refine .inr ⟨error, rfl, ?_⟩
        have hsame : ((placed.settle id parents ancestors).enter graph id).parentIds =
            placed.parentIds := parentIds_congr fun other => (hsettled other).2.2.2
        refine nullAbove_of_tellAll_error
          (m := (placed.settle id parents ancestors).enter graph id)
          ((hsettled id).2.2.2.trans hown) ?_ hlater
        intro parent hparent other hreach v hv
        rw [hsame] at hreach
        refine (hreached parent hparent other hreach).2 v ?_
        rw [Object.listed, ← (hsettled other).2.2.2]
        exact hv
      · exact .inl rfl

/-- What every registration keeps, failed or not: labels and kinds, and the parents of all entities
but its own, which become entities that the graph holds if they are written. -/
structure Kept (m later : Memory) (graph id : Nat) : Prop where
  size : later.size = m.size
  labels : ∀ other, (later.object other).label = (m.object other).label ∧
    (later.object other).kind = (m.object other).kind
  others : ∀ other ≠ id, (later.object other).parents = (m.object other).parents
  written : (later.entries = m.entries ∧ (later.object id).parents = (m.object id).parents) ∨
    (later.entries = m.entries ∨ later.entries = m.entries ++ [⟨graph, (m.object id).name, id⟩]) ∧
      ∃ parents : List Nat, (later.object id).parents = parents.map .entity ∧
        ∀ parent ∈ parents, m.holds graph parent = true

theorem Placed.kept {placed : Memory} {graph id : Nat} {parents : List Nat}
    (h : m.Placed placed graph id parents) : m.Kept placed graph id := by
  refine ⟨h.size, fun other => ?_, fun other hother => congrArg _ (h.object_of_ne hother),
    .inr ⟨.inl h.entries, parents, h.object_self.1, (accept_ok h.accepted).2.2⟩⟩
  by_cases hother : other = id
  · subst hother
    exact h.object_self.2
  · rw [h.object_of_ne hother]
    exact ⟨rfl, rfl⟩

theorem registerWithin_kept (m : Memory) (depth graph id : Nat) :
    m.Kept (m.registerWithin depth graph id).2 graph id := by
  rcases m.registerWithin_cases depth graph id with
    ⟨error, hran⟩ | ⟨parents, placed, hplaced, ⟨error, hran⟩ | ⟨ancestors, -, hran⟩⟩
  · rw [hran]
    exact ⟨rfl, fun _ => ⟨rfl, rfl⟩, fun _ _ => rfl, .inl ⟨rfl, rfl⟩⟩
  · rw [hran]
    exact hplaced.kept
  · rw [hran]
    have htold := ((placed.settle id parents ancestors).enter graph id).told_tellAll depth id parents
    have hsettled := placed.settle_object id parents ancestors
    have hkept := hplaced.kept
    have hname : ((placed.settle id parents ancestors).object id).name = (m.object id).name :=
      congrArg Name.text ((hsettled id).2.1.trans (hkept.labels id).1)
    refine ⟨htold.size.trans hkept.size, fun other => ⟨?_, ?_⟩, fun other hother => ?_,
      .inr ⟨.inr ?_, parents, ?_, (accept_ok hplaced.accepted).2.2⟩⟩
    · exact (htold.kept other).1.trans ((hsettled other).2.1.trans (hkept.labels other).1)
    · exact (htold.kept other).2.1.trans ((hsettled other).2.2.1.trans (hkept.labels other).2)
    · exact (htold.kept other).2.2.trans ((hsettled other).2.2.2.trans (hkept.others other hother))
    · rw [htold.entries, ← hname, ← hplaced.entries]
      rfl
    · exact (htold.kept id).2.2.trans ((hsettled id).2.2.2.trans hplaced.object_self.1)

/-- A registration is not cut short by the bound on its ways up. -/
theorem registerWithin_stable (names : List Nat) {depth depth' id : Nat}
    (hwithin : m.Within (id :: names)) (hdepth : names.length < depth)
    (hdepth' : names.length < depth') (graph : Nat) :
    m.registerWithin depth graph id = m.registerWithin depth' graph id := by
  rw [registerWithin, registerWithin]
  cases haccept : m.accept graph id with
  | error error => rfl
  | ok parents =>
    cases hvalidate : m.validate id with
    | error error => rfl
    | ok checked =>
      have hwithin' := (placed_of_validate haccept hvalidate).within hwithin
      dsimp only
      rw [closure_stable hwithin' hdepth hdepth']
      cases hclosure :
        (checked.assignParents id (parents.map .entity)).closure depth' parents with
      | error error => rfl
      | ok ancestors =>
        refine tellAll_congr fun parent hparent => ?_
        rw [gates_settled]
        have hends := (ends_of_closure hwithin' hdepth' hclosure
          ((mem_closure_iff hwithin' hdepth' hclosure).mpr ⟨parent, hparent, .refl⟩)).1
        exact gates_stable hwithin' hends (Graph.path_nil parent) (by simp) hdepth hdepth'

end AccessMatrix.Memory
