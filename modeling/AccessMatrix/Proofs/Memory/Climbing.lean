import AccessMatrix.Proofs.Graph.Closure
import AccessMatrix.Proofs.Memory.Telling

/-!
# Ways up in memory

The parents of an object are items, and what is no entity cannot be gone on with: the closure fails
there, as it does on a cycle. So a closure that succeeds is one of a relation in which an object with
such an item is its own parent, and what holds of closures holds of it: no chain above its starts goes
on for ever, and whatever they reach lists entities only. But a null among the parents ends the list
of them without a failure. The contexts that gate a branch are looked for without this
exception: their search fails there.
-/

namespace AccessMatrix.Memory

open AccessMatrix.Graph (Link Ends Path)
open Outcome
open Relation (ReflTransGen TransGen)

variable {m : Memory} {names : List Nat}

/-- The parents of an entity that are gone through are entities. -/
def Clean (m : Memory) (id : Nat) : Prop := ∀ v, Item.value v ∉ (m.object id).listed

/-- The parents of an entity; where they cannot be gone through, the entity is one of its own. -/
def links (m : Memory) (id : Nat) : List Nat :=
  if (m.object id).listed.all fun item => item.id?.isSome then m.parentIds id
  else id :: m.parentIds id

/-- Whatever is not among some entities is no context and has no parents. -/
def Within (m : Memory) (names : List Nat) : Prop :=
  ∀ id ∉ names, (m.object id).isContext = false ∧ (m.object id).parents = []

/-- The entities that stand first among some items. -/
def leading : List Item → List Nat
  | .entity id :: rest => id :: leading rest
  | _ => []

theorem parentIds_subset_links (m : Memory) (id : Nat) : m.parentIds id ⊆ m.links id := by
  rw [links]
  split
  · exact List.Subset.refl _
  · exact List.subset_cons_self _ _

theorem eq_map_entity {items : List Item} (h : ∀ v, Item.value v ∉ items) :
    items = (items.filterMap Item.id?).map .entity := by
  induction items with
  | nil => rfl
  | cons item rest ih =>
    cases item with
    | value v => exact absurd List.mem_cons_self (h v)
    | entity id =>
      have hrest := ih fun v hv => h v (List.mem_cons_of_mem _ hv)
      change _ = Item.entity id :: (rest.filterMap Item.id?).map Item.entity
      rw [← hrest]

/-- Where the parents are entities, they are listed as such. -/
theorem Clean.listed_eq {id : Nat} (h : m.Clean id) :
    (m.object id).listed = (m.parentIds id).map .entity := eq_map_entity h

theorem Clean.links_eq {id : Nat} (h : m.Clean id) : m.links id = m.parentIds id := by
  refine if_pos (List.all_eq_true.mpr fun item hitem => ?_)
  cases item with
  | value v => exact absurd hitem (h v)
  | entity parent => rfl

/-- An entity whose parents cannot be gone through has no way up that ends. -/
theorem clean_of_ends {id : Nat} (h : Ends m.links id) : m.Clean id := by
  by_contra hclean
  obtain ⟨v, hv⟩ := not_forall_not.mp hclean
  have hself : Link m.links id id := by
    rw [Link, links, if_neg fun hall => ?_]
    · exact List.mem_cons_self
    · exact absurd (List.all_eq_true.mp hall _ hv) nofun
  exact h.not_above_self (.single hself)

theorem walk_succ (m : Memory) (depth : Nat) (path visited : List Nat) (id : Nat) :
    m.walk (depth + 1) path visited id =
      (m.object id).listed.foldlM (fun visited item =>
        match item with
        | .value v => .error (notEntity v)
        | .entity parent =>
          if parent ∈ path then .error (m.cyclic ⟨parent, path.reverse⟩)
          else if parent ∈ visited then .ok visited
          else m.walk depth (parent :: path) (parent :: visited) parent) visited := rfl

/-- A walk that succeeds has met entities only. -/
theorem clean_of_walk {depth id : Nat} {path visited reached : List Nat}
    (h : m.walk (depth + 1) path visited id = .ok reached) : m.Clean id := by
  intro v hv
  have hfold := foldlM_does (motive := fun _ => True) (fun item _ => item.id?.isSome = true) ?_
    trivial h
  · exact absurd (hfold.2.1 _ hv) nofun
  · intro _ _ item _ _ hnext
    refine ⟨trivial, ?_, fun _ hother => hother⟩
    cases item with
    | value v => cases hnext
    | entity parent => rfl

/-- A walk that succeeds visits what is visited along the links. -/
theorem walk_ok {depth id : Nat} {path visited reached : List Nat}
    (h : m.walk depth path visited id = .ok reached) :
    Graph.walk m.links depth path visited id = .ok reached := by
  induction depth generalizing path visited id reached with
  | zero => exact congrArg Except.ok (Except.ok.inj h)
  | succ depth ih =>
    have hclean := clean_of_walk h
    rw [walk_succ, hclean.listed_eq, List.foldlM_map] at h
    rw [Graph.walk_succ, hclean.links_eq]
    refine foldlM_eq_ok_of_steps (fun state parent _ next hnext => ?_) h
    dsimp only at hnext
    split at hnext
    · contradiction
    · rename_i hpath
      rw [if_neg hpath]
      split at hnext
      · rename_i hvisited
        rw [if_pos hvisited, Except.ok.inj hnext]
      · rename_i hvisited
        rw [if_neg hvisited]
        exact ih hnext

/-- A closure that succeeds finds what is found along the links. -/
theorem closure_ok {depth : Nat} {starts reached : List Nat}
    (h : m.closure depth starts = .ok reached) :
    Graph.closureWithin m.links depth starts = .ok reached := by
  refine foldlM_eq_ok_of_steps (fun state start _ next hnext => ?_) h
  split at hnext
  · rename_i hvisited
    rw [if_pos hvisited, Except.ok.inj hnext]
  · rename_i hvisited
    rw [if_neg hvisited]
    exact walk_ok hnext

/-- A walk among entities whose parents can be gone through is one along the parents. -/
theorem walk_eq {motive : Nat → Prop}
    (hclean : ∀ id, motive id → m.Clean id ∧ ∀ parent ∈ m.parentIds id, motive parent)
    {depth id : Nat} {path visited : List Nat} (hid : motive id) :
    m.walk depth path visited id =
      (Graph.walk m.parentIds depth path visited id).mapError m.cyclic := by
  induction depth generalizing path visited id with
  | zero => rfl
  | succ depth ih =>
    obtain ⟨hlisted, hparents⟩ := hclean id hid
    rw [walk_succ, hlisted.listed_eq, List.foldlM_map, Graph.walk_succ, mapError_foldlM]
    refine foldlM_congr (fun state parent hparent => ?_) visited
    dsimp only
    split
    · rfl
    · split
      · rfl
      · exact ih (hparents parent hparent)

/-- A closure among entities whose parents can be gone through is one along the parents. -/
theorem closure_eq {motive : Nat → Prop}
    (hclean : ∀ id, motive id → m.Clean id ∧ ∀ parent ∈ m.parentIds id, motive parent)
    (depth : Nat) {starts : List Nat} (hstarts : ∀ start ∈ starts, motive start) :
    m.closure depth starts = (Graph.closureWithin m.parentIds depth starts).mapError m.cyclic := by
  rw [Graph.closureWithin, mapError_foldlM]
  refine foldlM_congr (fun state start hstart => ?_) []
  split
  · rfl
  · exact walk_eq hclean (hstarts start hstart)

theorem Within.listed {id : Nat} (h : m.Within names) (hid : (m.object id).listed ≠ []) :
    id ∈ names := by
  by_contra hnot
  exact hid (by rw [Object.listed, (h id hnot).2]; rfl)

theorem Within.links {id : Nat} (h : m.Within names) (hid : m.links id ≠ []) : id ∈ names := by
  by_contra hnot
  have hlisted : (m.object id).listed = [] := by rw [Object.listed, (h id hnot).2]; rfl
  exact hid (by simp [Memory.links, parentIds, hlisted])

/-- Where a path has everything below its end, its end lists no parents. -/
theorem Within.listed_of_full {below : List Nat} {id : Nat} (h : m.Within names)
    (hpath : Path names below id) (hfull : names.length ≤ below.length) :
    (m.object id).listed = [] :=
  not_imp_comm.mp h.listed (hpath.not_mem hfull)

theorem walk_of_listless {id : Nat} (h : (m.object id).listed = []) (depth : Nat)
    (path visited : List Nat) : m.walk depth path visited id = .ok visited := by
  cases depth with
  | zero => rfl
  | succ depth =>
    rw [walk_succ, h]
    rfl

/-- A walk is not cut short: a greater depth would make no difference. -/
theorem walk_stable (hwithin : m.Within names) {depth depth' id : Nat} {below visited : List Nat}
    (hpath : Path names below id) (hdepth : names.length ≤ depth + below.length)
    (hdepth' : names.length ≤ depth' + below.length) :
    m.walk depth (id :: below) visited id = m.walk depth' (id :: below) visited id := by
  induction depth generalizing depth' below visited id with
  | zero =>
    have hlisted := hwithin.listed_of_full hpath (by omega)
    rw [walk_of_listless hlisted, walk_of_listless hlisted]
  | succ depth ih =>
    cases depth' with
    | zero =>
      have hlisted := hwithin.listed_of_full hpath (by omega)
      rw [walk_of_listless hlisted, walk_of_listless hlisted]
    | succ depth' =>
      rw [walk_succ, walk_succ]
      refine foldlM_congr (fun state item hitem => ?_) visited
      cases item with
      | value v => rfl
      | entity parent =>
        dsimp only
        split
        · rfl
        · rename_i honPath
          split
          · rfl
          · have hid : id ∈ names := hwithin.listed (List.ne_nil_of_mem hitem)
            exact ih (hpath.cons hid honPath) (by rw [List.length_cons]; omega)
              (by rw [List.length_cons]; omega)

/-- A closure is not cut short: a greater depth would make no difference. -/
theorem closure_stable (hwithin : m.Within names) {depth depth' : Nat}
    (hdepth : names.length ≤ depth) (hdepth' : names.length ≤ depth') (starts : List Nat) :
    m.closure depth starts = m.closure depth' starts := by
  refine foldlM_congr (fun visited start _ => ?_) []
  split
  · rfl
  · exact walk_stable hwithin (Graph.path_nil start) hdepth hdepth'

section

variable {depth : Nat} {starts reached : List Nat}

/-- Nothing that a closure visits has a way up that goes on for ever, or parents that cannot be gone
through. -/
theorem ends_of_closure (hwithin : m.Within names) (hdepth : names.length ≤ depth)
    (h : m.closure depth starts = .ok reached) {id : Nat} (hid : id ∈ reached) :
    Ends m.parentIds id ∧ m.Clean id := by
  have hsettled := (Graph.closureWithin_settles (fun _ => hwithin.links) hdepth (closure_ok h)).1
  have hends := (hsettled id hid).ends
  exact ⟨Subrelation.accessible (fun hlink => parentIds_subset_links m _ hlink) hends,
    clean_of_ends hends⟩

/-- A closure that succeeds finds exactly what its starts reach by parent links. -/
theorem mem_closure_iff (hwithin : m.Within names) (hdepth : names.length ≤ depth)
    (h : m.closure depth starts = .ok reached) {id : Nat} :
    id ∈ reached ↔ ∃ start ∈ starts, ReflTransGen (Link m.parentIds) start id := by
  have hreached := Graph.mem_closureWithin_iff (fun _ => hwithin.links) hdepth (closure_ok h)
  rw [hreached]
  constructor
  · rintro ⟨start, hstart, hreach⟩
    refine ⟨start, hstart, ?_⟩
    induction hreach with
    | refl => exact .refl
    | tail hbefore hlink ih =>
      have hclean := (ends_of_closure hwithin hdepth h
        ((hreached _).mpr ⟨start, hstart, hbefore⟩)).2
      rw [Link, hclean.links_eq] at hlink
      exact ih.tail hlink
  · rintro ⟨start, hstart, hreach⟩
    have hlinks : Link m.parentIds ≤ Link m.links := fun child _ hlink =>
      parentIds_subset_links m child hlink
    exact ⟨start, hstart, ReflTransGen.mono hlinks _ _ hreach⟩

end

/-- The entities that stand first among the parents of an object are listed. -/
theorem leading_subset (m : Memory) (id : Nat) : leading (m.object id).parents ⊆ m.parentIds id := by
  rw [parentIds, Object.listed]
  generalize (m.object id).parents = items
  induction items with
  | nil => exact List.Subset.refl _
  | cons item rest ih =>
    cases item with
    | value v => exact List.nil_subset _
    | entity parent => exact List.cons_subset_cons parent ih

section

variable {visit visit' : Nat → List Nat × Option Error} {items : List Item}

/-- What is met depends on the visits of the entities that stand first. -/
theorem meet_congr (h : ∀ parent ∈ leading items, visit parent = visit' parent) :
    meet visit items = meet visit' items := by
  induction items with
  | nil => rfl
  | cons item rest ih =>
    cases item with
    | value v => rfl
    | entity parent =>
      obtain ⟨hparent, hrest⟩ := List.forall_mem_cons.mp h
      rw [meet, meet, hparent, ih hrest]

/-- What is met on several visits is met on one of them. -/
theorem exists_of_mem_meet {id : Nat} (h : id ∈ (meet visit items).1) :
    ∃ parent ∈ leading items, id ∈ (visit parent).1 := by
  induction items with
  | nil => exact absurd h List.not_mem_nil
  | cons item rest ih =>
    cases item with
    | value v => exact absurd h List.not_mem_nil
    | entity parent =>
      rw [meet] at h
      cases hvisit : visit parent with
      | mk met error? =>
        cases error? with
        | some error =>
          simp only [hvisit] at h
          exact ⟨parent, List.mem_cons_self, by rwa [hvisit]⟩
        | none =>
          simp only [hvisit, List.mem_append] at h
          rcases h with h | h
          · exact ⟨parent, List.mem_cons_self, by rwa [hvisit]⟩
          · obtain ⟨other, hother, hmet⟩ := ih h
            exact ⟨other, List.mem_cons_of_mem _ hother, hmet⟩

/-- Several visits fail where one of them does, or at what is no entity. -/
theorem exists_of_meet_error {error : Error} (h : (meet visit items).2 = some error) :
    (∃ v rest, items = (leading items).map .entity ++ .value v :: rest) ∨
      ∃ parent ∈ leading items, (visit parent).2 = some error := by
  induction items with
  | nil => cases h
  | cons item rest ih =>
    cases item with
    | value v => exact .inl ⟨v, rest, rfl⟩
    | entity parent =>
      rw [meet] at h
      cases hvisit : visit parent with
      | mk met error? =>
        cases error? with
        | some found =>
          simp only [hvisit] at h
          exact .inr ⟨parent, List.mem_cons_self, by rwa [hvisit]⟩
        | none =>
          simp only [hvisit] at h
          rcases ih h with ⟨v, later, hlater⟩ | ⟨other, hother, herror⟩
          · exact .inl ⟨v, later, congrArg (Item.entity parent :: ·) hlater⟩
          · exact .inr ⟨other, List.mem_cons_of_mem _ hother, herror⟩

/-- Visits of entities that all succeed meet what each of them does. -/
theorem meet_map_entity {ids : List Nat} (h : ∀ id ∈ ids, (visit id).2 = none) :
    meet visit (ids.map .entity) = (ids.flatMap fun id => (visit id).1, none) := by
  induction ids with
  | nil => rfl
  | cons id rest ih =>
    obtain ⟨hid, hrest⟩ := List.forall_mem_cons.mp h
    rw [List.map_cons, meet, ih hrest]
    cases hvisit : visit id with
    | mk met error? =>
      obtain rfl : error? = none := by simpa [hvisit] using hid
      simp [hvisit]

end

/-- The contexts that gate a branch stay within whatever holds of its start and is handed on to
parents. -/
theorem gates_forall {motive : Nat → Prop}
    (hup : ∀ id, motive id → ∀ parent ∈ m.parentIds id, motive parent) {depth id : Nat}
    (hid : motive id) : ∀ gate ∈ (m.gates depth id).1, motive gate := by
  induction depth generalizing id with
  | zero => exact fun _ hgate => absurd hgate List.not_mem_nil
  | succ depth ih =>
    intro gate hgate
    rw [gates_succ] at hgate
    split at hgate
    · exact List.mem_singleton.mp hgate ▸ hid
    · obtain ⟨parent, hparent, hgate⟩ := exists_of_mem_meet hgate
      exact ih (hup id hid parent (leading_subset m id hparent)) gate hgate

/-- Where a path has everything below its end, nothing gates the branch of its end. -/
theorem Within.gates_of_full {below : List Nat} {id : Nat} (h : m.Within names)
    (hpath : Path names below id) (hfull : names.length ≤ below.length) (depth : Nat) :
    m.gates depth id = ([], none) := by
  cases depth with
  | zero => rfl
  | succ depth =>
    obtain ⟨hcontext, hparents⟩ := h id (hpath.not_mem hfull)
    rw [gates_succ, hcontext, hparents]
    rfl

/-- The contexts that gate a branch are found in full: where no way up goes on for ever, a greater depth
would make no difference. -/
theorem gates_stable (hwithin : m.Within names) {depth depth' id : Nat} {below : List Nat}
    (hends : Ends m.parentIds id) (hpath : Path names below id)
    (hbelow : ∀ other ∈ below, TransGen (Link m.parentIds) other id)
    (hdepth : names.length ≤ depth + below.length)
    (hdepth' : names.length ≤ depth' + below.length) : m.gates depth id = m.gates depth' id := by
  induction depth generalizing depth' below id with
  | zero => rw [hwithin.gates_of_full hpath (by omega), hwithin.gates_of_full hpath (by omega)]
  | succ depth ih =>
    cases depth' with
    | zero => rw [hwithin.gates_of_full hpath (by omega), hwithin.gates_of_full hpath (by omega)]
    | succ depth' =>
      rw [gates_succ, gates_succ]
      refine ite_congr rfl (fun _ => rfl) fun _ => meet_congr fun parent hparent => ?_
      have hlink : Link m.parentIds id parent := leading_subset m id hparent
      have hparentEnds : Ends m.parentIds parent := hends.inv hlink
      have hmore : ∀ other ∈ id :: below, TransGen (Link m.parentIds) other parent :=
        List.forall_mem_cons.mpr ⟨.single hlink, fun other hother => (hbelow other hother).tail hlink⟩
      -- a way up that ends does not come back, so the path has nothing twice
      have hfresh : parent ∉ id :: below := fun hagain =>
        hparentEnds.not_above_self (hmore parent hagain)
      have hid : id ∈ names := by
        by_contra hnot
        rw [(hwithin id hnot).2] at hparent
        exact absurd hparent List.not_mem_nil
      exact ih hparentEnds (hpath.cons hid hfresh) hmore (by rw [List.length_cons]; omega)
        (by rw [List.length_cons]; omega)

/-- What keeps a list of items from being one of entities, where what is listed of it is one, is
nothing. -/
theorem isNone_of_clean {id : Nat} (h : m.Clean id) {v : Value} {ids : List Nat} {rest : List Item}
    (hparents : (m.object id).parents = ids.map .entity ++ .value v :: rest) :
    (Item.value v).isNull = true := by
  by_contra hsome
  refine h v ?_
  rw [Object.listed, hparents, List.takeWhile_append_of_pos, List.takeWhile_cons_of_pos]
  · exact List.mem_append_right _ List.mem_cons_self
  · simpa using hsome
  · intro item hitem
    obtain ⟨other, -, rfl⟩ := List.mem_map.mp hitem
    rfl

/-- The search for the contexts that gate a branch fails, where the parents above can be gone through,
only at an entity that is no context and has nothing among its parents. -/
theorem exists_of_gates_error {depth id : Nat} {error : Error}
    (hclean : ∀ other, ReflTransGen (Link m.parentIds) id other → m.Clean other)
    (h : (m.gates depth id).2 = some error) :
    ∃ other, ReflTransGen (Link m.parentIds) id other ∧ (m.object other).isContext = false ∧
      ∃ item ∈ (m.object other).parents, item.isNull = true := by
  induction depth generalizing id with
  | zero => cases h
  | succ depth ih =>
    rw [gates_succ] at h
    split at h
    · cases h
    · rename_i hcontext
      rcases exists_of_meet_error h with ⟨v, rest, hparents⟩ | ⟨parent, hparent, h⟩
      · refine ⟨id, .refl, by simpa using hcontext, .value v, ?_,
          isNone_of_clean (hclean id .refl) hparents⟩
        rw [hparents]
        exact List.mem_append_right _ List.mem_cons_self
      · have hlink : Link m.parentIds id parent := leading_subset m id hparent
        obtain ⟨other, hreach, hfound⟩ :=
          ih (fun other hother => hclean other (hother.head hlink)) h
        exact ⟨other, hreach.head hlink, hfound⟩

end AccessMatrix.Memory
