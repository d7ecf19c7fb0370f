import AccessMatrix.Hierarchy.View
import AccessMatrix.Proofs.Graph.Ownership

/-!
# Nearness

An entity lists its ancestors by falling level. Each stands there once, and the entity is not among
them, because its name was free when the list was made. In a graph made by registration the list is
in order for the levels that the ancestors have now: a level follows from those of the parents, which
no later registration changes. So levels fall along parent links, and no chain of them goes on for
ever.
-/

namespace AccessMatrix

open Outcome

/-- The ancestors that an entity lists by their nearness are told apart, and it is none of them. -/
structure Entity.Ranked (e : Entity) : Prop where
  nodup : e.nearestFirst.Nodup
  not_self : e.name ∉ e.nearestFirst

namespace Graph

/-- A walk visits nothing twice. -/
theorem walk_nodup {parentsOf : String → List String} {depth : Nat}
    {path visited reached : List String} {name : String} (hvisited : visited.Nodup)
    (h : walk parentsOf depth path visited name = .ok reached) : reached.Nodup := by
  induction depth generalizing path visited reached name with
  | zero =>
    obtain rfl : visited = reached := Except.ok.inj h
    exact hvisited
  | succ depth ih =>
    rw [walk_succ] at h
    refine foldlM_keeps (motive := List.Nodup) ?_ hvisited h
    intro visited hvisited parent _ next hnext
    split at hnext
    · contradiction
    · split at hnext
      · obtain rfl : visited = next := Except.ok.inj hnext
        exact hvisited
      · rename_i hfresh
        exact ih (List.nodup_cons.mpr ⟨hfresh, hvisited⟩) hnext

/-- A closure visits nothing twice. -/
theorem closure_nodup {g : Graph} {starts reached : List String}
    (h : g.closure starts = .ok reached) : reached.Nodup := by
  refine foldlM_keeps (motive := List.Nodup) ?_ List.nodup_nil h
  intro visited hvisited start _ next hnext
  split at hnext
  · obtain rfl : visited = next := Except.ok.inj hnext
    exact hvisited
  · rename_i hfresh
    exact walk_nodup (List.nodup_cons.mpr ⟨hfresh, hvisited⟩) hnext

/-- The entities registered under some names have these names. -/
theorem map_name_filterMap_find? (g : Graph) (names : List String) :
    (names.filterMap g.find?).map Entity.name = names.filter (· ∈ g.names) := by
  induction names with
  | nil => rfl
  | cons name rest ih =>
    cases hfind : g.find? name with
    | none =>
      have hname : name ∉ g.names := find?_eq_none_iff.mp hfind
      rw [List.filterMap_cons_none hfind, List.filter_cons_of_neg (by simpa using hname), ih]
    | some e =>
      have hname : e.name = name := name_of_find? hfind
      have hmem : name ∈ g.names := find?_isSome_iff.mp (by rw [hfind]; rfl)
      rw [List.filterMap_cons_some hfind, List.map_cons, ih, hname,
        List.filter_cons_of_pos (by simpa using hmem)]

/-- The contexts among some names have those of the names that contexts are registered under. -/
theorem map_name_contextsAmong (g : Graph) (names : List String) :
    (g.contextsAmong names).map Entity.name = names.filter g.hasContext := by
  rw [contextsAmong]
  induction names with
  | nil => rfl
  | cons name rest ih =>
    cases hfind : g.find? name with
    | none =>
      have hcontext : g.hasContext name = false := by rw [hasContext, hfind, Option.any_none]
      rw [List.filterMap_cons_none hfind, ih, List.filter_cons_of_neg (by simp [hcontext])]
    | some e =>
      have hname : e.name = name := name_of_find? hfind
      have hcontext : g.hasContext name = e.isContext := by
        rw [hasContext, hfind, Option.any_some]
      rw [List.filterMap_cons_some hfind, List.filter_cons, List.filter_cons, hcontext]
      split
      · rw [List.map_cons, ih, hname]
      · exact ih

/-- A new entity lists by their nearness the ancestors that are registered. -/
theorem nearestFirst_derive_perm (g : Graph) (d : Draft) (ancestors : List String) :
    (g.derive d ancestors).nearestFirst.Perm (ancestors.filter (· ∈ g.names)) := by
  rw [← map_name_filterMap_find?]
  exact (List.mergeSort_perm _ _).map Entity.name

/-- A new entity ranks its ancestors. -/
theorem ranked_derive {g : Graph} {d : Draft} {ancestors : List String} (hd : g.Drafted d)
    (hclosure : g.closure d.parents = .ok ancestors) : (g.derive d ancestors).Ranked := by
  have hperm := nearestFirst_derive_perm g d ancestors
  refine ⟨hperm.nodup_iff.mpr ((closure_nodup hclosure).filter _), fun hself => ?_⟩
  have hregistered := (List.mem_filter.mp (hperm.mem_iff.mp hself)).2
  exact hd.derive_fresh ancestors (of_decide_eq_true hregistered)

/-- Registration leaves every entity with a ranking of its ancestors. -/
theorem ranked_register {g g' : Graph} {r : Registration} {new : Entity}
    (hg : ∀ e ∈ g.entities, e.Ranked) (h : g.register r = .ok (g', new)) :
    ∀ e ∈ g'.entities, e.Ranked := by
  obtain ⟨d, ancestors, hd, hclosure, rfl, rfl⟩ := register_cases h
  refine forall_mem_link.mpr ⟨fun e he => ?_, ranked_derive (draft_ok hd) hclosure⟩
  exact ⟨(hg e he).nodup, (hg e he).not_self⟩

/-- Reassigning parents leaves every ranking as it was. -/
theorem ranked_assignParents {g : Graph} (hg : ∀ e ∈ g.entities, e.Ranked) (name : String)
    (parents : List String) : ∀ e ∈ (g.assignParents name parents).entities, e.Ranked := by
  refine List.forall_mem_map.mpr fun e he => ?_
  split
  · exact ⟨(hg e he).nodup, (hg e he).not_self⟩
  · exact hg e he

/-- The ancestors of a registered entity by their nearness; an unregistered name has none. -/
def nearestOf (g : Graph) (name : String) : List String :=
  ((g.find? name).map Entity.nearestFirst).getD []

/-- The required ancestors of a registered entity; an unregistered name has none. -/
def requiredOf (g : Graph) (name : String) : List String :=
  ((g.find? name).map Entity.required).getD []

/-- One name stands before another in the order of ancestors: it has the higher level, or the same one
and comes first by its text. -/
def Nearer (g : Graph) (a b : String) : Prop :=
  g.levelOf b < g.levelOf a ∨ g.levelOf a = g.levelOf b ∧ a ≤ b

instance (g : Graph) (a b : String) : Decidable (g.Nearer a b) :=
  inferInstanceAs (Decidable (_ ∨ _ ∧ _))

theorem Nearer.antisymm {g : Graph} {a b : String} (h : g.Nearer a b) (h' : g.Nearer b a) :
    a = b := by
  rcases h with hlevel | ⟨hlevel, hname⟩ <;> rcases h' with hlevel' | ⟨hlevel', hname'⟩
  · omega
  · omega
  · omega
  · exact String.le_antisymm hname hname'

theorem isNearer_iff {a b : Entity} :
    isNearer a b = true ↔ b.level < a.level ∨ a.level = b.level ∧ a.name ≤ b.name := by
  simp [isNearer]

theorem isNearer_trans (a b c : Entity) (hab : isNearer a b = true) (hbc : isNearer b c = true) :
    isNearer a c = true := by
  rw [isNearer_iff] at hab hbc ⊢
  rcases hab with hab | ⟨hab, hnames⟩ <;> rcases hbc with hbc | ⟨hbc, hnames'⟩
  · exact .inl (by omega)
  · exact .inl (by omega)
  · exact .inl (by omega)
  · exact .inr ⟨by omega, String.le_trans hnames hnames'⟩

theorem isNearer_total (a b : Entity) : (isNearer a b || isNearer b a) = true := by
  rw [Bool.or_eq_true, isNearer_iff, isNearer_iff]
  rcases Nat.lt_trichotomy a.level b.level with h | h | h
  · exact .inr (.inl h)
  · rcases String.le_total a.name b.name with hname | hname
    · exact .inl (.inr ⟨h, hname⟩)
    · exact .inr (.inr ⟨h.symm, hname⟩)
  · exact .inl (.inl h)

/-- The greatest of some numbers is bounded by what bounds them all. -/
theorem foldl_max_le_iff {numbers : List Nat} {start bound : Nat} :
    numbers.foldl max start ≤ bound ↔ start ≤ bound ∧ ∀ number ∈ numbers, number ≤ bound := by
  induction numbers generalizing start with
  | nil => simp
  | cons number rest ih => rw [List.foldl_cons, ih, List.forall_mem_cons, Nat.max_le, and_assoc]

/-- The greatest of some numbers is one of them. -/
theorem foldl_max_mem {numbers : List Nat} (h : numbers ≠ []) : numbers.foldl max 0 ∈ numbers := by
  obtain ⟨first, rest, rfl⟩ := List.exists_cons_of_ne_nil h
  rw [List.foldl_cons, Nat.zero_max]
  exact List.max?_mem List.max?_cons'

/-- What an entity derived from its parents follows from them as they are now, and its ancestors stand
in the order of the levels that they have now. -/
structure Derived (g : Graph) (e : Entity) : Prop where
  level : e.level = 1 + (e.parents.map g.levelOf).foldl max 0
  mem_required : ∀ name, name ∈ e.required ↔
    name ∈ e.ancestors ∧ ∀ parent ∈ e.parents, parent = name ∨ name ∈ g.requiredOf parent
  sorted : e.nearestFirst.Pairwise g.Nearer

/-- A registered name has the level of its entity. -/
theorem levelOf_of_find? {g : Graph} {name : String} {e : Entity} (h : g.find? name = some e) :
    g.levelOf name = e.level := by
  rw [levelOf, h, Option.map_some, Option.getD_some]

theorem requiredOf_of_find? {g : Graph} {name : String} {e : Entity} (h : g.find? name = some e) :
    g.requiredOf name = e.required := by
  rw [requiredOf, h, Option.map_some, Option.getD_some]

/-- Linking leaves the level and the required ancestors of every other name as they are. -/
theorem derivedOf_link (g : Graph) {new : Entity} {name : String} (hname : name ≠ new.name) :
    (g.link new).levelOf name = g.levelOf name ∧
      (g.link new).requiredOf name = g.requiredOf name := by
  rw [levelOf, requiredOf, find?_link, if_neg (Ne.symm hname), Option.or_none, levelOf, requiredOf]
  cases g.find? name <;> exact ⟨rfl, rfl⟩

/-- What follows from parents and ancestors still does when an entity of another name is linked. -/
theorem Derived.link {g : Graph} {new e : Entity} (h : g.Derived e)
    (hparents : ∀ parent ∈ e.parents, parent ≠ new.name)
    (hancestors : ∀ ancestor ∈ e.nearestFirst, ancestor ≠ new.name) : (g.link new).Derived e where
  level := by
    have hlevels : e.parents.map (g.link new).levelOf = e.parents.map g.levelOf :=
      List.map_congr_left fun parent hparent => (derivedOf_link g (hparents parent hparent)).1
    rw [hlevels]
    exact h.level
  mem_required name := by
    rw [h.mem_required]
    refine and_congr_right fun _ => forall₂_congr fun parent hparent => ?_
    rw [(derivedOf_link g (hparents parent hparent)).2]
  sorted := by
    refine h.sorted.imp_of_mem fun {a b} ha hb hnearer => ?_
    rw [Nearer, (derivedOf_link g (hancestors a ha)).1, (derivedOf_link g (hancestors b hb)).1]
    exact hnearer

/-- The levels of the entities registered under some names are those of the names. -/
theorem map_level_filterMap_find? {g : Graph} {names : List String}
    (hmem : ∀ name ∈ names, name ∈ g.names) :
    (names.filterMap g.find?).map Entity.level = names.map g.levelOf := by
  induction names with
  | nil => rfl
  | cons name rest ih =>
    obtain ⟨hname, hrest⟩ := List.forall_mem_cons.mp hmem
    obtain ⟨e, hfind⟩ := Option.isSome_iff_exists.mp (find?_isSome_iff.mpr hname)
    rw [List.filterMap_cons_some hfind, List.map_cons, List.map_cons, ih hrest,
      levelOf_of_find? hfind]

/-- What a new entity stores follows from its parents. -/
theorem derived_derive {g : Graph} {d : Draft} {ancestors : List String} (hd : g.Drafted d) :
    g.Derived (g.derive d ancestors) where
  level := by
    change 1 + ((d.parents.filterMap g.find?).map Entity.level).foldl max 0 = _
    rw [map_level_filterMap_find? hd.parents_mem]
    rfl
  mem_required name := by
    change name ∈ ancestors.filter (isRequired (d.parents.filterMap g.find?)) ↔
      name ∈ ancestors ∧ ∀ parent ∈ d.parents, parent = name ∨ name ∈ g.requiredOf parent
    rw [List.mem_filter, isRequired, List.all_eq_true, List.forall_mem_filterMap]
    refine and_congr_right fun _ => forall₂_congr fun parent hparent => ?_
    obtain ⟨e, hfind⟩ :=
      Option.isSome_iff_exists.mp (find?_isSome_iff.mpr (hd.parents_mem parent hparent))
    have hname : e.name = parent := name_of_find? hfind
    simp [hfind, hname, requiredOf_of_find? hfind]
  sorted := by
    have hsorted := List.pairwise_mergeSort isNearer_trans isNearer_total
      (ancestors.filterMap g.find?)
    refine List.pairwise_map.mpr (hsorted.imp_of_mem fun {a b} ha hb hnearer => ?_)
    have hlevel {e : Entity} (he : e ∈ (ancestors.filterMap g.find?).mergeSort isNearer) :
        g.levelOf e.name = e.level := by
      obtain ⟨name, -, hfind⟩ := List.mem_filterMap.mp (List.mem_mergeSort.mp he)
      obtain rfl : e.name = name := name_of_find? hfind
      exact levelOf_of_find? hfind
    rw [Nearer, hlevel ha, hlevel hb]
    exact isNearer_iff.mp hnearer

/-- In a graph made by registration, what an entity derived from its parents still follows from
them. -/
theorem Registered.derived {g : Graph} (h : g.Registered) : ∀ e ∈ g.entities, g.Derived e := by
  induction h with
  | empty => exact fun _ he => absurd he List.not_mem_nil
  | @register g g' r new hg h ih =>
    obtain ⟨d, ancestors, hdraft, hclosure, rfl, rfl⟩ := register_cases h
    have hd := draft_ok hdraft
    have hfresh := hd.derive_fresh ancestors
    have hne {name : String} (hname : name ∈ g.names) : name ≠ (g.derive d ancestors).name :=
      fun heq => hfresh (heq ▸ hname)
    have hparents := hd.parents_mem
    have hancestors (name : String) (hname : name ∈ (g.derive d ancestors).nearestFirst) :
        name ∈ g.names := by
      have hkept := (nearestFirst_derive_perm g d ancestors).mem_iff.mp hname
      exact of_decide_eq_true (List.mem_filter.mp hkept).2
    refine forall_mem_link.mpr ⟨fun e he => ?_, ?_⟩
    · have hrelated := hg.related e he
      have hold : (g.link (g.derive d ancestors)).Derived e :=
        (ih e he).link (fun parent hparent => hne (hrelated.parents_mem parent hparent))
          fun ancestor hancestor => hne
            (hrelated.ancestors_mem ancestor ((hrelated.mem_nearestFirst ancestor).mp hancestor))
      exact ⟨hold.level, hold.mem_required, hold.sorted⟩
    · exact (derived_derive hd).link (fun parent hparent => hne (hparents parent hparent))
        fun ancestor hancestor => hne (hancestors ancestor hancestor)

section

variable {g : Graph}

/-- In a graph made by registration every entity ranks its ancestors. -/
theorem Registered.ranked (h : g.Registered) : ∀ e ∈ g.entities, e.Ranked := by
  induction h with
  | empty => exact fun _ he => absurd he List.not_mem_nil
  | register _ h ih => exact ranked_register ih h

/-- The ancestors of an entity come in one order only: whatever names are told apart, are those of the
ancestors and are in the order of ancestors, are listed so. -/
theorem Registered.nearestOf_eq (h : g.Registered) {e : Entity} (he : e ∈ g.entities)
    {names : List String} (hnodup : names.Nodup) (hmem : ∀ name, name ∈ names ↔ name ∈ e.ancestors)
    (hsorted : names.Pairwise g.Nearer) : g.nearestOf e.name = names := by
  have hperm : e.nearestFirst.Perm names := by
    refine (List.perm_ext_iff_of_nodup (h.ranked e he).nodup hnodup).mpr fun name => ?_
    rw [(h.related e he).mem_nearestFirst, hmem]
  rw [nearestOf, h.find?_name he, Option.map_some, Option.getD_some]
  exact hperm.eq_of_pairwise (fun _ _ _ _ => Nearer.antisymm) (h.derived e he).sorted hsorted

theorem Registered.levelOf_name (h : g.Registered) {e : Entity} (he : e ∈ g.entities) :
    g.levelOf e.name = e.level :=
  levelOf_of_find? (h.find?_name he)

/-- A parent has a lower level. -/
theorem Registered.levelOf_lt (h : g.Registered) {child parent : String}
    (hlink : Link g.parentsOf child parent) : g.levelOf parent < g.levelOf child := by
  rw [Link, parentsOf] at hlink
  cases hfind : g.find? child with
  | none => simp [hfind] at hlink
  | some e =>
    have hparent : parent ∈ e.parents := by simpa [hfind] using hlink
    have hbound := (foldl_max_le_iff.mp (Nat.le_refl ((e.parents.map g.levelOf).foldl max 0))).2 _
      (List.mem_map_of_mem hparent)
    rw [levelOf_of_find? hfind, (h.derived e (List.mem_of_find?_eq_some hfind)).level]
    omega

/-- In a graph made by registration no chain of parent links goes on for ever. -/
theorem Registered.ends (h : g.Registered) (name : String) : Ends g.parentsOf name :=
  Subrelation.accessible (fun hlink => h.levelOf_lt hlink) ((measure g.levelOf).wf.apply name)

end

end Graph

end AccessMatrix
