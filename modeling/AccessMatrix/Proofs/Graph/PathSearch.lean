import AccessMatrix.Proofs.Graph.Choices
import AccessMatrix.Proofs.Graph.Cycles

/-!
# The search for paths

The parent relation may be any, with cycles anywhere. The search goes up from an origin, parent by
parent, and has no memory but the path that it stands on. On a path nothing stands twice and all but
its end have parents, so it is never longer than the number of entities: the search ends, and the
bound on its depth is never met. If it meets an entity again there is a cycle. If it never does, every
chain from the origin ends, so there is none.

The same search can be made by a loop over a worklist of paths, each of which is replaced by those
that go on from it. The induction for it is on the depth of the search, with the paths that wait.
-/

namespace AccessMatrix.Graph

open Outcome
open Relation (ReflTransGen TransGen)

/-- A search stands at a name, on a path from its origin: nothing stands there twice, what comes before
the name is registered, and each entry reaches the name. -/
structure Trail (parentsOf : String → List String) (names : List String) (origin : String)
    (path : List String) (name : String) : Prop where
  nodup : (origin :: path).Nodup
  registered : ∀ other ∈ origin :: path, other = name ∨ other ∈ names
  reaches : ∀ other ∈ origin :: path, ReflTransGen (Link parentsOf) other name

/-- Paths that are to be gone on with, the next one first and each with the name that it ends at, and
the ways found so far. -/
structure Worklist where
  pending : List (String × List String)
  found : List (List String) := []

/-- One turn of the loop. A path that ends at a root is a way that is found, one that goes on to an
entity on it is refused, and any other gives way to those that go on to the parents of its end. Where
no path is left the loop ends with the ways found. -/
def Worklist.turn (parentsOf : String → List String) (origin : String) :
    Worklist → Worklist ⊕ Except Cycle (List (List String))
  | ⟨[], found⟩ => .inr (.ok found)
  | ⟨(name, path) :: pending, found⟩ =>
    if parentsOf name = [] then .inl ⟨pending, found ++ [path]⟩
    else if ∃ parent ∈ parentsOf name, parent ∈ origin :: path then .inr (.error ⟨origin, path⟩)
    else .inl ⟨(parentsOf name).map (fun parent => (parent, path ++ [parent])) ++ pending, found⟩

/-- The loop comes to an end after finitely many turns, and with this result. -/
def Worklist.Yields (parentsOf : String → List String) (origin : String) (w : Worklist)
    (result : Except Cycle (List (List String))) : Prop :=
  ∃ last, ReflTransGen (fun w next => turn parentsOf origin w = .inl next) w last ∧
    turn parentsOf origin last = .inr result

/-- The loop, with some paths to be gone on with first, comes to what is found for them: it goes on
with the others and what was found is added, or it ends with the cycle that was met. -/
def Worklist.ComesTo (parentsOf : String → List String) (origin : String)
    (paths : List (String × List String)) : Except Cycle (List (List String)) → Prop
  | .ok ways => ∀ pending found result, Yields parentsOf origin ⟨pending, found ++ ways⟩ result →
      Yields parentsOf origin ⟨paths ++ pending, found⟩ result
  | .error cycle => ∀ pending found, Yields parentsOf origin ⟨paths ++ pending, found⟩ (.error cycle)

section

variable {parentsOf : String → List String} {names : List String} {origin : String}

/-- What the search does at a name. -/
theorem pathsWithin_succ (depth : Nat) (path : List String) (name : String) :
    pathsWithin parentsOf origin (depth + 1) path name =
      if parentsOf name = [] then .ok [path]
      else if ∃ parent ∈ parentsOf name, parent ∈ origin :: path then .error ⟨origin, path⟩
      else ((parentsOf name).mapM fun parent =>
        pathsWithin parentsOf origin depth (path ++ [parent]) parent).map List.flatten := by
  rw [pathsWithin]
  cases parentsOf name with
  | nil => rfl
  | cons first rest => simp [List.any_eq_true]

theorem trail_nil (name : String) : Trail parentsOf names name [] name where
  nodup := List.nodup_singleton name
  registered := by simp
  reaches := List.forall_mem_singleton.mpr .refl

/-- A path has at most as many steps as there are entities. -/
theorem Trail.length_le {path : List String} {name : String}
    (h : Trail parentsOf names origin path name) : path.length ≤ names.length := by
  have hsubset : origin :: path ⊆ name :: names := fun other hother =>
    List.mem_cons.mpr (h.registered other hother)
  simpa using (List.subperm_of_subset h.nodup hsubset).length_le

/-- A path goes on to a parent that is not on it. -/
theorem Trail.concat {path : List String} {name parent : String}
    (h : Trail parentsOf names origin path name) (hname : name ∈ names)
    (hlink : Link parentsOf name parent) (hfresh : parent ∉ origin :: path) :
    Trail parentsOf names origin (path ++ [parent]) parent where
  nodup := by
    rw [← List.cons_append]
    exact List.nodup_append.mpr ⟨h.nodup, List.nodup_singleton parent, fun other hother _ hparent hsame =>
      hfresh (List.mem_singleton.mp hparent ▸ hsame ▸ hother)⟩
  registered := by
    rw [← List.cons_append]
    refine List.forall_mem_append.mpr ⟨fun other hother => .inr ?_, by simp⟩
    rcases h.registered other hother with rfl | hother
    · exact hname
    · exact hother
  reaches := by
    rw [← List.cons_append]
    exact List.forall_mem_append.mpr
      ⟨fun other hother => (h.reaches other hother).tail hlink, List.forall_mem_singleton.mpr .refl⟩

/-- A path that goes on by one name uses up one of the depth that is left. -/
theorem lt_depth_concat {bound depth : Nat} {path : List String}
    (h : bound < depth + 1 + path.length) (parent : String) :
    bound < depth + (path ++ [parent]).length := by
  rw [List.length_append, List.length_singleton]
  omega

/-- From a name with parents, the search goes on to each of them if it has met none. -/
theorem Trail.up (hnames : ∀ name, parentsOf name ≠ [] → name ∈ names) {path : List String}
    {name : String} (h : Trail parentsOf names origin path name)
    (hclear : ¬ ∃ parent ∈ parentsOf name, parent ∈ origin :: path) :
    ∀ parent ∈ parentsOf name, Trail parentsOf names origin (path ++ [parent]) parent :=
  fun parent hlink => h.concat (hnames name (List.ne_nil_of_mem hlink)) hlink
    fun hparent => hclear ⟨parent, hlink, hparent⟩

/-- A search that fails has met a cycle. -/
theorem reachesCycle_of_pathsWithin (hnames : ∀ name, parentsOf name ≠ [] → name ∈ names)
    {depth : Nat} {path : List String} {name : String} {cycle : Cycle}
    (htrail : Trail parentsOf names origin path name)
    (h : pathsWithin parentsOf origin depth path name = .error cycle) :
    ReachesCycle parentsOf name := by
  induction depth generalizing path name with
  | zero => cases h
  | succ depth ih =>
    rw [pathsWithin_succ] at h
    split at h
    · cases h
    · split at h
      · rename_i hmet
        obtain ⟨parent, hlink, hparent⟩ := hmet
        exact ⟨name, .refl, .head' hlink (htrail.reaches parent hparent)⟩
      · rename_i hclear
        obtain ⟨_, parent, _, hparents, -, herror⟩ := mapM_eq_error.mp (map_eq_error.mp h)
        have hlink : parent ∈ parentsOf name := hparents ▸ List.mem_append_cons_self
        exact reachesCycle_iff.mpr ⟨parent, hlink, ih (htrail.up hnames hclear parent hlink) herror⟩

/-- A search that succeeds has followed every chain to its end. -/
theorem ends_of_pathsWithin (hnames : ∀ name, parentsOf name ≠ [] → name ∈ names) {depth : Nat}
    {path : List String} {name : String} {ways : List (List String)}
    (htrail : Trail parentsOf names origin path name) (hdepth : names.length < depth + path.length)
    (h : pathsWithin parentsOf origin depth path name = .ok ways) : Ends parentsOf name := by
  induction depth generalizing path name ways with
  | zero =>
    have hlength := htrail.length_le
    omega
  | succ depth ih =>
    rw [pathsWithin_succ] at h
    refine ⟨_, fun parent hlink => ?_⟩
    rw [if_neg (List.ne_nil_of_mem hlink)] at h
    split at h
    · cases h
    · rename_i hclear
      obtain ⟨results, hresults, -⟩ := map_eq_ok.mp h
      obtain ⟨found, hfound⟩ := exists_of_mapM_eq_ok hresults parent hlink
      exact ih (htrail.up hnames hclear parent hlink) (lt_depth_concat hdepth parent) hfound

/-- A search that succeeds has found the ways up to a root in the order of the choices. -/
theorem ways_of_pathsWithin {depth : Nat} {path : List String} {name : String}
    {ways : List (List String)} (h : pathsWithin parentsOf origin depth path name = .ok ways) :
    ways = (waysWithin parentsOf depth name).map (path ++ ·) := by
  induction depth generalizing path name ways with
  | zero => exact (Except.ok.inj h).symm
  | succ depth ih =>
    rw [pathsWithin_succ] at h
    rw [waysWithin]
    split at h
    · rename_i hroot
      rw [if_pos hroot, ← Except.ok.inj h]
      simp
    · rename_i hparents
      rw [if_neg hparents]
      split at h
      · cases h
      · obtain ⟨results, hresults, rfl⟩ := map_eq_ok.mp h
        have hfound : ∀ parent ∈ parentsOf name,
            pathsWithin parentsOf origin depth (path ++ [parent]) parent =
              .ok ((waysWithin parentsOf depth parent).map (path ++ [parent] ++ ·)) := by
          intro parent hlink
          obtain ⟨found, hfound⟩ := exists_of_mapM_eq_ok hresults parent hlink
          rw [hfound, ih hfound]
        obtain rfl := Except.ok.inj (hresults.symm.trans (mapM_eq_ok hfound))
        simp [List.flatMap_def, List.map_flatten, Function.comp_def]

/-- A search is not cut short: a greater depth would make no difference. -/
theorem pathsWithin_stable (hnames : ∀ name, parentsOf name ≠ [] → name ∈ names)
    {depth depth' : Nat} {path : List String} {name : String}
    (htrail : Trail parentsOf names origin path name) (hdepth : names.length < depth + path.length)
    (hdepth' : names.length < depth' + path.length) :
    pathsWithin parentsOf origin depth path name = pathsWithin parentsOf origin depth' path name := by
  have hlength := htrail.length_le
  induction depth generalizing depth' path name with
  | zero => omega
  | succ depth ih =>
    cases depth' with
    | zero => omega
    | succ depth' =>
      rw [pathsWithin_succ, pathsWithin_succ]
      split
      · rfl
      · split
        · rfl
        · rename_i hclear
          refine congrArg (Except.map List.flatten) (mapM_congr fun parent hlink => ?_)
          have hup := htrail.up hnames hclear parent hlink
          exact ih hup (lt_depth_concat hdepth parent) (lt_depth_concat hdepth' parent) hup.length_le

namespace Worklist

/-- What a loop yields after a turn it yields before it. -/
theorem Yields.head {w next : Worklist} {result : Except Cycle (List (List String))}
    (hturn : turn parentsOf origin w = .inl next) (h : next.Yields parentsOf origin result) :
    w.Yields parentsOf origin result := by
  obtain ⟨last, hrun, hlast⟩ := h
  exact ⟨last, hrun.head hturn, hlast⟩

/-- Paths that give way to others come to what those come to. -/
theorem ComesTo.head {paths paths' : List (String × List String)}
    {outcome : Except Cycle (List (List String))}
    (hturn : ∀ pending found, turn parentsOf origin ⟨paths ++ pending, found⟩ =
      .inl ⟨paths' ++ pending, found⟩)
    (h : ComesTo parentsOf origin paths' outcome) : ComesTo parentsOf origin paths outcome := by
  cases outcome with
  | error cycle => exact fun pending found => (h pending found).head (hturn pending found)
  | ok ways =>
    exact fun pending found result hrest =>
      (h pending found result hrest).head (hturn pending found)

/-- The loop goes on with some paths after others. -/
theorem ComesTo.append {paths paths' : List (String × List String)}
    {outcome outcome' : Except Cycle (List (List String))}
    (h : ComesTo parentsOf origin paths outcome) (h' : ComesTo parentsOf origin paths' outcome') :
    ComesTo parentsOf origin (paths ++ paths')
      (outcome >>= fun ways => outcome'.map (ways ++ ·)) := by
  cases outcome with
  | error cycle =>
    intro pending found
    rw [List.append_assoc]
    exact h (paths' ++ pending) found
  | ok ways =>
    cases outcome' with
    | error cycle =>
      intro pending found
      rw [List.append_assoc]
      exact h (paths' ++ pending) found _ (h' pending (found ++ ways))
    | ok ways' =>
      intro pending found result hrest
      rw [List.append_assoc]
      rw [← List.append_assoc] at hrest
      exact h (paths' ++ pending) found _ (h' pending (found ++ ways) _ hrest)

/-- The loop comes to what is found for several paths in turn. -/
theorem comesTo_mapM {items : List String} {entry : String → String × List String}
    {search : String → Except Cycle (List (List String))}
    (h : ∀ item ∈ items, ComesTo parentsOf origin [entry item] (search item)) :
    ComesTo parentsOf origin (items.map entry) ((items.mapM search).map List.flatten) := by
  induction items with
  | nil =>
    intro pending found result hrest
    simpa using hrest
  | cons item rest ih =>
    obtain ⟨hitem, hrest⟩ := List.forall_mem_cons.mp h
    have hsearch : ((item :: rest).mapM search).map List.flatten =
        search item >>= fun ways => ((rest.mapM search).map List.flatten).map (ways ++ ·) := by
      rw [List.mapM_cons]
      cases search item <;> cases rest.mapM search <;> rfl
    rw [List.map_cons, ← List.singleton_append, hsearch]
    exact hitem.append (ih hrest)

/-- The loop comes to what the search finds. -/
theorem comesTo_pathsWithin (hnames : ∀ name, parentsOf name ≠ [] → name ∈ names) {depth : Nat}
    {path : List String} {name : String} (htrail : Trail parentsOf names origin path name)
    (hdepth : names.length < depth + path.length) :
    ComesTo parentsOf origin [(name, path)] (pathsWithin parentsOf origin depth path name) := by
  induction depth generalizing path name with
  | zero =>
    have hlength := htrail.length_le
    omega
  | succ depth ih =>
    rw [pathsWithin_succ]
    split
    · rename_i hroot
      exact fun pending found result hrest => hrest.head (if_pos hroot)
    · rename_i hparents
      split
      · rename_i hmet
        refine fun pending found => ⟨_, .refl, ?_⟩
        rw [List.singleton_append, turn, if_neg hparents, if_pos hmet]
      · rename_i hclear
        refine ComesTo.head (fun pending found => ?_) (comesTo_mapM fun parent hlink =>
          ih (htrail.up hnames hclear parent hlink) (lt_depth_concat hdepth parent))
        rw [List.singleton_append, turn, if_neg hparents, if_neg hclear]

/-- The loop that begins with the empty path of its origin yields what the search finds. -/
theorem ComesTo.yields {outcome : Except Cycle (List (List String))}
    {paths : List (String × List String)} (h : ComesTo parentsOf origin paths outcome) :
    Yields parentsOf origin ⟨paths, []⟩ outcome := by
  rw [← List.append_nil paths]
  cases outcome with
  | error cycle => exact h [] []
  | ok ways => exact h [] [] _ ⟨_, .refl, rfl⟩

end Worklist

end

variable {g : Graph} {name : String}

/-- A depth above the number of entities is enough for a search that begins. -/
theorem length_names_lt {depth : Nat} (h : g.size < depth) :
    g.names.length < depth + ([] : List String).length := by
  rwa [List.length_nil, g.length_names]

/-- The bound on the depth of the search is never met. -/
theorem paths_stable (g : Graph) (name : String) {depth : Nat} (hdepth : g.size < depth) :
    pathsWithin g.parentsOf name depth [] name = g.paths name :=
  pathsWithin_stable (mem_names_of_parents g) (trail_nil name) (length_names_lt hdepth)
    (length_names_lt (Nat.lt_succ_self _))

/-- Every chain from the origin of a search that succeeds ends. -/
theorem ends_of_paths {ways : List (List String)} (h : g.paths name = .ok ways) :
    Ends g.parentsOf name :=
  ends_of_pathsWithin (mem_names_of_parents g) (trail_nil name)
    (length_names_lt (Nat.lt_succ_self _)) h

/-- The search succeeds exactly if its origin reaches no cycle. -/
theorem exists_paths_iff :
    (∃ ways, g.paths name = .ok ways) ↔ ¬ ReachesCycle g.parentsOf name := by
  constructor
  · rintro ⟨ways, h⟩
    exact (ends_of_paths h).not_reachesCycle
  · intro h
    cases hpaths : g.paths name with
    | ok ways => exact ⟨ways, rfl⟩
    | error cycle =>
      exact absurd (reachesCycle_of_pathsWithin (mem_names_of_parents g) (trail_nil name) hpaths) h

/-- A search that succeeds has the ways up to a root. -/
theorem mem_paths_iff {ways : List (List String)} (h : g.paths name = .ok ways)
    {way : List String} : way ∈ ways ↔ RootWay g.parentsOf name way := by
  -- any greater depth finds the same ways, so none is too long to be found
  have hways {depth : Nat} (hdepth : g.size < depth) :
      ways = waysWithin g.parentsOf depth name := by
    rw [← paths_stable g name hdepth] at h
    simpa using ways_of_pathsWithin h
  constructor
  · intro hway
    rw [hways (Nat.lt_succ_self _)] at hway
    exact (mem_waysWithin_iff.mp hway).1
  · intro hway
    rw [hways (Nat.lt_succ_of_le (Nat.le_max_left g.size way.length))]
    exact mem_waysWithin_iff.mpr ⟨hway, Nat.lt_succ_of_le (Nat.le_max_right _ _)⟩

/-- A search that succeeds has its ways in the order of choice. -/
theorem inOrderOfChoice_of_paths {ways : List (List String)} (h : g.paths name = .ok ways) :
    InOrderOfChoice g.parentsOf name ways := by
  have hways : ways = waysWithin g.parentsOf (g.size + 1) name := by
    simpa using ways_of_pathsWithin h
  rw [hways]
  refine inOrderOfChoice_waysWithin fun way hway => ?_
  have hmem := (mem_paths_iff h).mpr hway
  rw [hways] at hmem
  exact (mem_waysWithin_iff.mp hmem).2

/-- Where every chain ends, some way leads up to a root. -/
theorem Ends.exists_rootWay {parentsOf : String → List String} (h : Ends parentsOf name) :
    ∃ way, RootWay parentsOf name way := by
  induction h with
  | intro name _ ih =>
    by_cases hroot : parentsOf name = []
    · exact ⟨[], .root hroot⟩
    · obtain ⟨parent, hlink⟩ := List.exists_mem_of_ne_nil _ hroot
      obtain ⟨way, hway⟩ := ih parent hlink
      exact ⟨parent :: way, .up hlink hway⟩

/-- Where every chain ends, what stands above a name is what stands on its ways up to a root. -/
theorem Ends.above_iff {parentsOf : String → List String} (h : Ends parentsOf name)
    {other : String} :
    TransGen (Link parentsOf) name other ↔ ∃ way, RootWay parentsOf name way ∧ other ∈ way := by
  constructor
  · intro habove
    obtain ⟨way, hway⟩ := (h.of_reaches habove.to_reflTransGen).exists_rootWay
    induction habove using TransGen.head_induction_on with
    | single hlink => exact ⟨_, .up hlink hway, List.mem_cons_self⟩
    | head hlink _ ih =>
      obtain ⟨way, hway, hother⟩ := ih (h.inv hlink)
      exact ⟨_, .up hlink hway, List.mem_cons_of_mem _ hother⟩
  · rintro ⟨way, hway, hother⟩
    induction hway with
    | root => exact absurd hother List.not_mem_nil
    | up hlink _ ih =>
      rcases List.mem_cons.mp hother with rfl | hother
      · exact .single hlink
      · exact .head hlink (ih (h.inv hlink) hother)

/-- The search for paths and the closure agree, whatever the parents of entities are, with cycles
anywhere and parents that stand more than once. The loop over a worklist ends, and with what the search
finds; the bound on the depth of the search is never met. Both the search from an entity and the
closure of its parents fail exactly if the entity reaches a cycle. If they succeed, the search has one
way for each sequence of choices of parents up to a root, in the lexicographic order of the choices,
and what stands on the ways is what the closure has. -/
theorem paths_agree_with_closure (g : Graph) (name : String) :
    Worklist.Yields g.parentsOf name ⟨[(name, [])], []⟩ (g.paths name) ∧
    (∀ depth, g.size < depth → pathsWithin g.parentsOf name depth [] name = g.paths name) ∧
    ((∃ cycle, g.paths name = .error cycle) ↔ ReachesCycle g.parentsOf name) ∧
    ((∃ cycle, g.closure (g.parentsOf name) = .error cycle) ↔ ReachesCycle g.parentsOf name) ∧
    ∀ ways, g.paths name = .ok ways → InOrderOfChoice g.parentsOf name ways ∧
      ∃ reached, g.closure (g.parentsOf name) = .ok reached ∧
        ∀ other, other ∈ reached ↔ ∃ way ∈ ways, other ∈ way := by
  refine ⟨?_, fun _ => g.paths_stable name, ?_, ?_, fun ways hways =>
    ⟨inOrderOfChoice_of_paths hways, ?_⟩⟩
  · exact (Worklist.comesTo_pathsWithin (mem_names_of_parents g) (trail_nil name)
      (length_names_lt (Nat.lt_succ_self _))).yields
  · rw [exists_error_iff, exists_paths_iff, not_not]
  · rw [exists_error_iff, exists_closure_parents_iff, not_not]
  · have hends : Ends g.parentsOf name := ends_of_paths hways
    obtain ⟨reached, hreached⟩ := exists_closure_parents_iff.mpr hends.not_reachesCycle
    refine ⟨reached, hreached, fun other => ?_⟩
    calc other ∈ reached
      _ ↔ TransGen (Link g.parentsOf) name other := by
        rw [mem_closure_iff hreached, TransGen.head'_iff]
        rfl
      _ ↔ ∃ way, RootWay g.parentsOf name way ∧ other ∈ way := hends.above_iff
      _ ↔ ∃ way ∈ ways, other ∈ way := by simp only [mem_paths_iff hways]

/-- A parent that stands twice is chosen in two ways, and a cycle is met wherever it is. -/
example :
    let root : Entity := { label := .plain "root", kind := .plain }
    let leaf : Entity := { label := .plain "leaf", kind := .plain, parents := ["root", "root"] }
    let loop : Entity := { root with parents := ["root"] }
    Graph.paths ⟨[root, leaf]⟩ "leaf" = .ok [["root"], ["root"]] ∧
      Graph.paths ⟨[loop, leaf]⟩ "leaf" = .error ⟨"leaf", ["root"]⟩ := by
  decide +kernel

end AccessMatrix.Graph
