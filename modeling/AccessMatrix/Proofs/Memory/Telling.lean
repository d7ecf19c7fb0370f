import AccessMatrix.Memory.Register
import Mathlib.Data.List.Basic

/-!
# What telling changes

The entities above a new one are told of it by writes that each add its place to a set, and adding it
twice is adding it once. So whatever order the writes stand in and however often they are repeated,
they come to one note in every object that is told. The contexts that are told are found by what no
such write changes: the kinds and parents of entities.
-/

namespace AccessMatrix

theorem mem_withPlace {stored : List Nat} {id other : Nat} :
    other ∈ withPlace stored id ↔ other ∈ stored ∨ other = id := by
  rw [withPlace]
  split
  · rename_i hid
    exact (or_iff_left_of_imp fun heq => heq ▸ hid).symm
  · rw [List.mem_append, List.mem_singleton]

theorem withPlace_withPlace (stored : List Nat) (id : Nat) :
    withPlace (withPlace stored id) id = withPlace stored id :=
  if_pos (mem_withPlace.mpr (.inr rfl))

theorem mem_foldl_withPlace {ids stored : List Nat} {other : Nat} :
    other ∈ ids.foldl withPlace stored ↔ other ∈ stored ∨ other ∈ ids := by
  induction ids generalizing stored with
  | nil => simp
  | cons id rest ih => rw [List.foldl_cons, ih, mem_withPlace, List.mem_cons, or_assoc]

theorem mem_noted {stored : List Nat} {known : Bool} {id new : Nat} :
    new ∈ (if known then withPlace stored id else stored) ↔ new ∈ stored ∨ new = id ∧ known = true := by
  cases known <;> simp [mem_withPlace]

/-- Places put into a set one after the other. -/
theorem foldl_withPlace (ids stored : List Nat) :
    ids.foldl withPlace stored = stored ++ (ids.filter (· ∉ stored)).eraseDups := by
  induction ids generalizing stored with
  | nil => simp
  | cons id rest ih =>
    rw [List.foldl_cons, ih, withPlace]
    by_cases hid : id ∈ stored
    · rw [if_pos hid, List.filter_cons_of_neg (by simpa using hid)]
    · rw [if_neg hid, List.filter_cons_of_pos (by simpa using hid), List.eraseDups_cons,
        List.filter_filter, List.append_assoc, List.singleton_append]
      congr 3
      refine List.filter_congr fun other _ => ?_
      by_cases h : other = id <;> simp [h]

/-- An object that notes a new entity: among its children, its descendants and the entities that it
gates, each if it is asked to. -/
def Object.noting (o : Object) (new : Nat) (child below gated : Bool) : Object :=
  { o with
    children := if child then withPlace o.children new else o.children
    descendants := if below then withPlace o.descendants new else o.descendants
    controllers := if gated then withPlace o.controllers new else o.controllers }

/-- To note twice is to note once. -/
theorem Object.noting_noting (o : Object) (new : Nat)
    (child below gated child' below' gated' : Bool) :
    (o.noting new child below gated).noting new child' below' gated' =
      o.noting new (child || child') (below || below') (gated || gated') := by
  cases child <;> cases child' <;> cases below <;> cases below' <;> cases gated <;> cases gated' <;>
    simp [noting, withPlace_withPlace]

namespace Memory

variable {m : Memory} {depth new : Nat}

/-- The memory in which some objects have noted a new entity. -/
def noting (m : Memory) (new : Nat) (children below gated : List Nat) : Memory :=
  { m with object := fun id =>
    (m.object id).noting new (children.contains id) (below.contains id) (gated.contains id) }

/-- The memory in which an entity has more owners. -/
def owned (m : Memory) (new : Nat) (met : List Nat) : Memory :=
  m.write new fun o => { o with owners := met.foldl withPlace o.owners }

theorem noting_noting (m : Memory) (new : Nat)
    (children below gated children' below' gated' : List Nat) :
    (m.noting new children below gated).noting new children' below' gated' =
      m.noting new (children ++ children') (below ++ below') (gated ++ gated') := by
  simp [noting, Object.noting_noting]

theorem noting_nil (m : Memory) (new : Nat) : m.noting new [] [] [] = m := by
  simp [noting, Object.noting]

/-- Whether an entity has more owners does not matter to what is noted. -/
theorem noting_owned (m : Memory) (new : Nat) (met children below gated : List Nat) :
    (m.owned new met).noting new children below gated =
      (m.noting new children below gated).owned new met := by
  refine Memory.ext rfl (funext fun id => ?_) rfl
  simp only [noting, owned, write]
  split <;> rfl

theorem owned_owned (m : Memory) (new : Nat) (met more : List Nat) :
    (m.owned new met).owned new more = m.owned new (met ++ more) := by
  refine Memory.ext rfl (funext fun id => ?_) rfl
  simp only [owned, write, List.foldl_append]
  split <;> rfl

/-- Several objects that note a new entity in the same way note it as one. -/
theorem writeEach_eq_noting {change : Object → Object} (child below gated : Bool)
    (hchange : ∀ o, change o = o.noting new child below gated) (m : Memory) (ids : List Nat) :
    m.writeEach ids change =
      m.noting new (if child then ids else []) (if below then ids else [])
        (if gated then ids else []) := by
  obtain rfl : change = fun o => o.noting new child below gated := funext hchange
  induction ids generalizing m with
  | nil => simp [writeEach, noting_nil]
  | cons id rest ih =>
    rw [writeEach, List.foldl_cons]
    refine (ih _).trans (Memory.ext rfl (funext fun other => ?_) rfl)
    simp only [write, noting]
    split
    · rename_i heq
      subst heq
      rw [Object.noting_noting]
      cases child <;> cases below <;> cases gated <;> simp
    · rename_i hne
      cases child <;> cases below <;> cases gated <;> simp [hne]

/-- An object after its memory was told of an entity. -/
theorem object_told (m : Memory) (id : Nat) (children below gates : List Nat) (other : Nat) :
    ((m.noting id children below gates).owned id gates).object other =
      { (m.object other).noting id (children.contains other) (below.contains other)
          (gates.contains other) with
        owners := if other = id then gates.foldl withPlace (m.object other).owners
          else (m.object other).owners } := by
  simp only [owned, write, noting]
  split <;> rfl

theorem gates_succ (m : Memory) (depth id : Nat) :
    m.gates (depth + 1) id =
      if (m.object id).isContext then ([id], none)
      else meet (m.gates depth) (m.object id).parents := rfl

/-- The contexts that gate a branch depend on the kinds and parents of entities alone. -/
theorem gates_congr {m' : Memory} (h : ∀ id, (m'.object id).isContext = (m.object id).isContext ∧
    (m'.object id).parents = (m.object id).parents) : m'.gates = m.gates := by
  refine funext fun depth => ?_
  induction depth with
  | zero => rfl
  | succ depth ih =>
    refine funext fun id => ?_
    rw [gates_succ, gates_succ, (h id).1, (h id).2, ih]

theorem gates_noting (m : Memory) (new : Nat) (children below gated : List Nat) :
    (m.noting new children below gated).gates = m.gates :=
  gates_congr fun _ => ⟨rfl, rfl⟩

theorem gates_owned (m : Memory) (new : Nat) (met : List Nat) : (m.owned new met).gates = m.gates := by
  refine gates_congr fun id => ?_
  simp only [owned, write]
  split <;> exact ⟨rfl, rfl⟩

/-- What it comes to when a parent is told. -/
theorem tell_eq (m : Memory) (depth new parent : Nat) :
    m.tell depth new parent =
      let met := (m.gates depth parent).1
      let told := m.noting new [parent] (parent :: (m.object parent).ancestors) met
      match (m.gates depth parent).2 with
      | some error => (.error error, told)
      | none => (.ok (), told.owned new met) := by
  have hparent : (m.write parent fun o =>
      { o with children := withPlace o.children new, descendants := withPlace o.descendants new }) =
      m.noting new [parent] [parent] [] :=
    writeEach_eq_noting true true false (fun _ => rfl) m [parent]
  have hbelow (m : Memory) (ids : List Nat) :
      m.writeEach ids (fun o => { o with descendants := withPlace o.descendants new }) =
        m.noting new [] ids [] :=
    writeEach_eq_noting false true false (fun _ => rfl) m ids
  have hgated (m : Memory) (ids : List Nat) :
      m.writeEach ids (fun o => { o with controllers := withPlace o.controllers new }) =
        m.noting new [] [] ids :=
    writeEach_eq_noting false false true (fun _ => rfl) m ids
  have hancestors : ((m.noting new [parent] [parent] []).object parent).ancestors =
      (m.object parent).ancestors := rfl
  simp only [tell, hparent, hbelow, hgated, hancestors, noting_noting, gates_noting, List.append_nil,
    List.nil_append, List.singleton_append]
  rfl

/-- The ancestors of some entities and these themselves. -/
def above (m : Memory) (parents : List Nat) : List Nat :=
  parents.flatMap fun parent => parent :: (m.object parent).ancestors

theorem mem_above {parents : List Nat} {other : Nat} :
    other ∈ m.above parents ↔
      ∃ parent ∈ parents, other = parent ∨ other ∈ (m.object parent).ancestors := by
  simp [above]

/-- The contexts that gate some branches. -/
def gatesOf (m : Memory) (depth : Nat) (parents : List Nat) : List Nat :=
  parents.flatMap fun parent => (m.gates depth parent).1

/-- What it comes to when all parents are told. -/
theorem tellAll_ok {later : Memory} {parents : List Nat}
    (h : m.tellAll depth new parents = (.ok (), later)) :
    later = (m.noting new parents (m.above parents) (m.gatesOf depth parents)).owned new
      (m.gatesOf depth parents) := by
  induction parents generalizing m with
  | nil =>
    obtain rfl : m = later := (Prod.mk.inj h).2
    refine Memory.ext rfl (funext fun id => ?_) rfl
    simp only [above, gatesOf, List.flatMap_nil, noting_nil, owned, write]
    split <;> rfl
  | cons parent rest ih =>
    rw [tellAll, tell_eq] at h
    cases herror : (m.gates depth parent).2 with
    | some error => simp [herror] at h
    | none =>
      simp only [herror] at h
      obtain rfl := ih h
      have habove (m : Memory) (children below gated met : List Nat) :
          ((m.noting new children below gated).owned new met).above rest = m.above rest := by
        refine List.flatMap_congr fun other _ => ?_
        simp only [owned, write]
        split <;> rfl
      have hgates (m : Memory) (children below gated met : List Nat) :
          ((m.noting new children below gated).owned new met).gatesOf depth rest =
            m.gatesOf depth rest := by
        simp only [gatesOf, gates_owned, gates_noting]
      rw [habove, hgates, noting_owned, owned_owned, noting_noting]
      rfl

/-- A memory in which some entities were told of another one: graphs hold what they held, and all
objects are as they were, but for its place among their children, descendants and controllers, and for
its own owners. -/
structure Told (new : Nat) (m later : Memory) : Prop where
  size : later.size = m.size
  entries : later.entries = m.entries
  others : ∀ id ≠ new, ∃ child below gated,
    later.object id = (m.object id).noting new child below gated
  self : ∃ child below gated owners,
    later.object new = { (m.object new).noting new child below gated with owners }

theorem Told.refl (new : Nat) (m : Memory) : m.Told new m :=
  ⟨rfl, rfl, fun _ _ => ⟨false, false, false, rfl⟩, false, false, false, (m.object new).owners, rfl⟩

theorem Told.trans {later last : Memory} (h : m.Told new later) (h' : later.Told new last) :
    m.Told new last := by
  refine ⟨h'.size.trans h.size, h'.entries.trans h.entries, fun id hid => ?_, ?_⟩
  · obtain ⟨child, below, gated, heq⟩ := h.others id hid
    obtain ⟨child', below', gated', heq'⟩ := h'.others id hid
    exact ⟨_, _, _, by rw [heq', heq, Object.noting_noting]⟩
  · obtain ⟨child, below, gated, owners, heq⟩ := h.self
    obtain ⟨child', below', gated', owners', heq'⟩ := h'.self
    refine ⟨child || child', below || below', gated || gated', owners', ?_⟩
    rw [heq', heq, ← Object.noting_noting]
    rfl

/-- Telling leaves the labels, kinds and parents of all entities. -/
theorem Told.kept {later : Memory} (h : m.Told new later) (id : Nat) :
    (later.object id).label = (m.object id).label ∧ (later.object id).kind = (m.object id).kind ∧
      (later.object id).parents = (m.object id).parents := by
  by_cases hid : id = new
  · obtain ⟨child, below, gated, owners, heq⟩ := h.self
    rw [hid, heq]
    exact ⟨rfl, rfl, rfl⟩
  · obtain ⟨child, below, gated, heq⟩ := h.others id hid
    rw [heq]
    exact ⟨rfl, rfl, rfl⟩

theorem told_noting (m : Memory) (new : Nat) (children below gated : List Nat) :
    m.Told new (m.noting new children below gated) :=
  ⟨rfl, rfl, fun _ _ => ⟨_, _, _, rfl⟩, _, _, _, _, rfl⟩

theorem told_owned (m : Memory) (new : Nat) (met : List Nat) : m.Told new (m.owned new met) :=
  ⟨rfl, rfl, fun _ hid => ⟨false, false, false, if_neg hid⟩, false, false, false, _, if_pos rfl⟩

/-- However far telling the parents gets, it tells and does nothing else. -/
theorem told_tellAll (m : Memory) (depth new : Nat) (parents : List Nat) :
    m.Told new (m.tellAll depth new parents).2 := by
  induction parents generalizing m with
  | nil => exact .refl new m
  | cons parent rest ih =>
    rw [tellAll, tell_eq]
    cases (m.gates depth parent).2 with
    | some error => exact told_noting ..
    | none => exact (told_noting ..).trans ((told_owned ..).trans (ih _))

/-- What is told depends on the contexts that gate the branches of the parents. -/
theorem tellAll_congr {depth' : Nat} {parents : List Nat}
    (h : ∀ parent ∈ parents, m.gates depth parent = m.gates depth' parent) :
    m.tellAll depth new parents = m.tellAll depth' new parents := by
  induction parents generalizing m with
  | nil => rfl
  | cons parent rest ih =>
    obtain ⟨hparent, hrest⟩ := List.forall_mem_cons.mp h
    rw [tellAll, tellAll, tell_eq, tell_eq, hparent]
    cases (m.gates depth' parent).2 with
    | some error => rfl
    | none =>
      refine ih fun other hother => ?_
      rw [gates_owned, gates_noting]
      exact hrest other hother

/-- Telling fails only where the search for the contexts of some branch does. -/
theorem exists_of_tellAll_error {later : Memory} {parents : List Nat} {error : Error}
    (h : m.tellAll depth new parents = (.error error, later)) :
    ∃ parent ∈ parents, (m.gates depth parent).2 = some error := by
  induction parents generalizing m with
  | nil => cases h
  | cons parent rest ih =>
    rw [tellAll, tell_eq] at h
    cases herror : (m.gates depth parent).2 with
    | some found =>
      simp only [herror] at h
      obtain rfl : found = error := Except.error.inj (Prod.mk.inj h).1
      exact ⟨parent, List.mem_cons_self, herror⟩
    | none =>
      simp only [herror] at h
      obtain ⟨other, hother, hfound⟩ := ih h
      rw [gates_owned, gates_noting] at hfound
      exact ⟨other, List.mem_cons_of_mem _ hother, hfound⟩

end Memory

end AccessMatrix
