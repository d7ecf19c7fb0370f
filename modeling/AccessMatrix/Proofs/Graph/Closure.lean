import AccessMatrix.Proofs.Graph.Registered
import Mathlib.Data.List.Perm.Subperm
import Mathlib.Logic.Relation

/-!
# What a closure finds

The parent relation may be any: parents can be reassigned, so it may have cycles. A closure that
succeeds has visited exactly what its starts reach by parent links, and no chain of parent links that
begins there goes on for ever.

The induction is on the depth of the walk. A name that was visited is on the path or settled:
everything that it reaches was visited, and no chain from it goes on. The names below the end of the
path are told apart and have parents, so they are registered, and there are never more of them than
the depth that the walk began with. This is why the bound on the depth never cuts a walk short.
-/

namespace AccessMatrix.Graph

open Outcome
open Relation (ReflTransGen TransGen)

section

variable {α : Type}

/-- One parent link up. -/
def Link (parentsOf : α → List α) (child parent : α) : Prop :=
  parent ∈ parentsOf child

/-- No chain of parent links from a name goes on for ever. -/
def Ends (parentsOf : α → List α) (name : α) : Prop :=
  Acc (fun parent child => Link parentsOf child parent) name

/-- A name is settled: no chain from it goes on for ever, and what it reaches was visited. -/
structure Settled (parentsOf : α → List α) (visited : List α) (name : α) : Prop where
  ends : Ends parentsOf name
  reached : ∀ other, ReflTransGen (Link parentsOf) name other → other ∈ visited

/-- The names below the end of a path have parents, and the path has no name twice. -/
structure Path (names below : List α) (name : α) : Prop where
  nodup : (name :: below).Nodup
  below_mem : ∀ other ∈ below, other ∈ names

variable {parentsOf : α → List α} {names : List α}

/-- A name from which every chain ends is on no cycle. -/
theorem Ends.not_above_self {name : α} (h : Ends parentsOf name) :
    ¬ TransGen (Link parentsOf) name name := by
  induction h with
  | intro name _ ih =>
    intro habove
    obtain ⟨parent, hlink, hreach⟩ := TransGen.head'_iff.mp habove
    exact ih parent hlink (TransGen.tail' hreach hlink)

/-- What is settled stays so when more is visited. -/
theorem Settled.mono {visited later : List α} {name : α}
    (h : Settled parentsOf visited name) (hlater : visited ⊆ later) :
    Settled parentsOf later name :=
  ⟨h.ends, fun other hother => hlater (h.reached other hother)⟩

/-- A visited name is settled as soon as its parents are. -/
theorem Settled.of_parents {visited : List α} {name : α} (hname : name ∈ visited)
    (h : ∀ parent ∈ parentsOf name, Settled parentsOf visited parent) :
    Settled parentsOf visited name := by
  refine ⟨⟨_, fun parent hparent => (h parent hparent).ends⟩, fun other hother => ?_⟩
  rcases ReflTransGen.cases_head hother with rfl | ⟨parent, hparent, hother⟩
  · exact hname
  · exact (h parent hparent).reached other hother

/-- A path that has every name below its end ends with none of them. -/
theorem Path.not_mem {below : List α} {name : α} (h : Path names below name)
    (hfull : names.length ≤ below.length) : name ∉ names := by
  intro hname
  have hpath : name :: below ⊆ names := List.cons_subset.mpr ⟨hname, h.below_mem⟩
  have hlength := (List.subperm_of_subset h.nodup hpath).length_le
  rw [List.length_cons] at hlength
  omega

/-- A path that is as long as can be ends with a name without parents. -/
theorem Path.parentless {below : List α} {name : α} (h : Path names below name)
    (hnames : ∀ name, parentsOf name ≠ [] → name ∈ names) (hfull : names.length ≤ below.length) :
    parentsOf name = [] :=
  not_imp_comm.mp (hnames name) (h.not_mem hfull)

/-- A path goes on to a parent that is not on it. -/
theorem Path.cons {below : List α} {name parent : α} (h : Path names below name)
    (hname : name ∈ names) (hparent : parent ∉ name :: below) :
    Path names (name :: below) parent :=
  ⟨List.nodup_cons.mpr ⟨hparent, h.nodup⟩, List.forall_mem_cons.mpr ⟨hname, h.below_mem⟩⟩

theorem path_nil (name : α) : Path names [] name := ⟨List.nodup_singleton name, by simp⟩

variable [DecidableEq α]

/-- A walk from a name without parents visits nothing more. -/
theorem walk_of_parentless {name : α} (h : parentsOf name = []) (depth : Nat)
    (path visited : List α) : walk parentsOf depth path visited name = .ok visited := by
  cases depth with
  | zero => rfl
  | succ depth =>
    rw [walk, h]
    rfl

/-- What a walk does for one parent. -/
theorem walk_succ (depth : Nat) (path visited : List α) (name : α) :
    walk parentsOf (depth + 1) path visited name =
      (parentsOf name).foldlM (fun visited parent =>
        if parent ∈ path then .error ⟨parent, path.reverse⟩
        else if parent ∈ visited then .ok visited
        else walk parentsOf depth (parent :: path) (parent :: visited) parent) visited := rfl

/-- A walk that succeeds keeps what was visited and settles whatever is not below it. -/
theorem walk_settles (hnames : ∀ name, parentsOf name ≠ [] → name ∈ names) {depth : Nat}
    {below visited reached : List α} {name : α} (hpath : Path names below name)
    (hdepth : names.length ≤ depth + below.length)
    (hsettled : ∀ other ∈ visited, other ∉ name :: below → Settled parentsOf visited other)
    (h : walk parentsOf depth (name :: below) visited name = .ok reached) :
    visited ⊆ reached ∧ ∀ other ∈ reached, other ∉ below → Settled parentsOf reached other := by
  induction depth generalizing below visited reached name with
  | zero =>
    have hparents : parentsOf name = [] := hpath.parentless hnames (by omega)
    obtain rfl : visited = reached := Except.ok.inj ((walk_of_parentless hparents _ _ _).symm.trans h)
    refine ⟨List.Subset.refl _, fun other hother hbelow => ?_⟩
    by_cases hsame : other = name
    · subst hsame
      exact .of_parents hother (by simp [hparents])
    · exact hsettled other hother (by simp [hsame, hbelow])
  | succ depth ih =>
    rw [walk_succ] at h
    -- between two parents, whatever is visited and not on the path is settled
    have hfold := foldlM_does
      (motive := fun state => visited ⊆ state ∧
        ∀ other ∈ state, other ∉ name :: below → Settled parentsOf state other)
      (fun parent state => Settled parentsOf state parent) ?_
      ⟨List.Subset.refl _, hsettled⟩ h
    · obtain ⟨⟨hkept, hresult⟩, hparents, -⟩ := hfold
      refine ⟨hkept, fun other hother hbelow => ?_⟩
      by_cases hsame : other = name
      · subst hsame
        exact .of_parents hother hparents
      · exact hresult other hother (by simp [hsame, hbelow])
    · intro state hstate parent hparent next hnext
      obtain ⟨hkept, hstate⟩ := hstate
      split at hnext
      · contradiction
      · rename_i honPath
        split at hnext
        · rename_i hvisited
          obtain rfl : state = next := Except.ok.inj hnext
          exact ⟨⟨hkept, hstate⟩, hstate parent hvisited honPath, fun _ hother => hother⟩
        · have hregistered : name ∈ names := hnames name (List.ne_nil_of_mem hparent)
          have hfresh : state ⊆ parent :: state := List.subset_cons_self _ _
          have hbefore : ∀ other ∈ parent :: state, other ∉ parent :: name :: below →
              Settled parentsOf (parent :: state) other := by
            intro other hother habove
            obtain ⟨hne, hbelow⟩ := List.ne_and_not_mem_of_not_mem_cons habove
            exact (hstate other ((List.mem_cons.mp hother).resolve_left hne) hbelow).mono hfresh
          obtain ⟨hmore, hafter⟩ := ih (hpath.cons hregistered honPath)
            (by rw [List.length_cons]; omega) hbefore hnext
          have hlater : state ⊆ next := List.Subset.trans hfresh hmore
          exact ⟨⟨List.Subset.trans hkept hlater, hafter⟩,
            hafter parent (hmore List.mem_cons_self) honPath, fun _ hother => hother.mono hlater⟩

/-- A walk is not cut short: a greater depth would make no difference. -/
theorem walk_stable (hnames : ∀ name, parentsOf name ≠ [] → name ∈ names) {depth depth' : Nat}
    {below visited : List α} {name : α} (hpath : Path names below name)
    (hdepth : names.length ≤ depth + below.length)
    (hdepth' : names.length ≤ depth' + below.length) :
    walk parentsOf depth (name :: below) visited name =
      walk parentsOf depth' (name :: below) visited name := by
  induction depth generalizing depth' below visited name with
  | zero =>
    have hparents : parentsOf name = [] := hpath.parentless hnames (by omega)
    rw [walk_of_parentless hparents, walk_of_parentless hparents]
  | succ depth ih =>
    cases depth' with
    | zero =>
      have hparents : parentsOf name = [] := hpath.parentless hnames (by omega)
      rw [walk_of_parentless hparents, walk_of_parentless hparents]
    | succ depth' =>
      rw [walk_succ, walk_succ]
      refine foldlM_congr (fun state parent hparent => ?_) visited
      split
      · rfl
      · rename_i honPath
        split
        · rfl
        · have hregistered : name ∈ names := hnames name (List.ne_nil_of_mem hparent)
          exact ih (hpath.cons hregistered honPath) (by rw [List.length_cons]; omega)
            (by rw [List.length_cons]; omega)

/-- A closure that succeeds settles all that it visits, its starts among them. -/
theorem closureWithin_settles (hnames : ∀ name, parentsOf name ≠ [] → name ∈ names) {depth : Nat}
    (hdepth : names.length ≤ depth) {starts reached : List α}
    (h : closureWithin parentsOf depth starts = .ok reached) :
    (∀ other ∈ reached, Settled parentsOf reached other) ∧ starts ⊆ reached := by
  have hfold := foldlM_does
    (motive := fun visited => ∀ other ∈ visited, Settled parentsOf visited other)
    (fun start visited => start ∈ visited) ?_ (by simp) h
  · exact ⟨hfold.1, hfold.2.1⟩
  · intro visited hvisited start hstart next hnext
    split at hnext
    · rename_i hknown
      obtain rfl : visited = next := Except.ok.inj hnext
      exact ⟨hvisited, hknown, fun _ hother => hother⟩
    · have hfresh : visited ⊆ start :: visited := List.subset_cons_self _ _
      have hbefore : ∀ other ∈ start :: visited, other ∉ [start] →
          Settled parentsOf (start :: visited) other := by
        intro other hother hne
        have hother := (List.mem_cons.mp hother).resolve_left (by simpa using hne)
        exact (hvisited other hother).mono hfresh
      obtain ⟨hmore, hafter⟩ := walk_settles hnames (path_nil start) (by simpa using hdepth)
        hbefore hnext
      exact ⟨fun other hother => hafter other hother (by simp), hmore List.mem_cons_self,
        fun other hother => hmore (hfresh hother)⟩

/-- A closure that succeeds finds exactly what its starts reach by parent links. -/
theorem mem_closureWithin_iff (hnames : ∀ name, parentsOf name ≠ [] → name ∈ names) {depth : Nat}
    (hdepth : names.length ≤ depth) {starts reached : List α}
    (h : closureWithin parentsOf depth starts = .ok reached) (name : α) :
    name ∈ reached ↔ ∃ start ∈ starts, ReflTransGen (Link parentsOf) start name := by
  constructor
  · refine closureWithin_forall (motive := fun name =>
      ∃ start ∈ starts, ReflTransGen (Link parentsOf) start name) ?_ ?_ h name
    · intro name hname parent hparent
      obtain ⟨start, hstart, hreach⟩ := hname
      exact ⟨start, hstart, hreach.tail hparent⟩
    · exact fun start hstart => ⟨start, hstart, .refl⟩
  · intro hreached
    obtain ⟨start, hstart, hreach⟩ := hreached
    obtain ⟨hsettled, hstarts⟩ := closureWithin_settles hnames hdepth h
    exact (hsettled start (hstarts hstart)).reached name hreach

/-- A closure is not cut short: a greater depth would make no difference. -/
theorem closureWithin_stable (hnames : ∀ name, parentsOf name ≠ [] → name ∈ names)
    {depth depth' : Nat} (hdepth : names.length ≤ depth) (hdepth' : names.length ≤ depth')
    (starts : List α) :
    closureWithin parentsOf depth starts = closureWithin parentsOf depth' starts := by
  refine foldlM_congr (fun visited start _ => ?_) []
  split
  · rfl
  · exact walk_stable hnames (path_nil start) hdepth hdepth'

end

/-- What is told apart is so under its image. -/
theorem mem_map_iff_of_injOn {α β : Type} {image : α → β} {motive : α → Prop}
    (hinj : ∀ a, motive a → ∀ b, motive b → image a = image b → a = b)
    {names : List α} (hnames : ∀ a ∈ names, motive a) {name : α} (hname : motive name) :
    image name ∈ names.map image ↔ name ∈ names := by
  rw [List.mem_map]
  constructor
  · rintro ⟨other, hother, heq⟩
    exact hinj other (hnames other hother) name hname heq ▸ hother
  · exact fun h => ⟨name, h, rfl⟩

section

variable {α β : Type} [DecidableEq α] [DecidableEq β] {image : α → β} {motive : α → Prop}
  {parentsOf : α → List α} {parentsOf' : β → List β}

/-- A cycle under other names. -/
def Cycle.map {α β : Type} (image : α → β) (cycle : Cycle α) : Cycle β :=
  ⟨image cycle.name, cycle.path.map image⟩

/-- A walk does not depend on what tells entities apart. -/
theorem walk_map (hinj : ∀ a, motive a → ∀ b, motive b → image a = image b → a = b)
    (hup : ∀ a, motive a →
      parentsOf' (image a) = (parentsOf a).map image ∧ ∀ parent ∈ parentsOf a, motive parent)
    {depth : Nat} {path visited : List α} {name : α} (hpath : ∀ a ∈ path, motive a)
    (hvisited : ∀ a ∈ visited, motive a) (hname : motive name) :
    walk parentsOf' depth (path.map image) (visited.map image) (image name) =
      ((walk parentsOf depth path visited name).map (List.map image)).mapError (Cycle.map image) := by
  induction depth generalizing path visited name with
  | zero => rfl
  | succ depth ih =>
    obtain ⟨hparents, hmotive⟩ := hup name hname
    rw [walk_succ, walk_succ, hparents]
    refine foldlM_map_of_steps (List.map image) (motive := fun visited => ∀ a ∈ visited, motive a)
      visited hvisited fun state hstate parent hparent => ?_
    have hparent := hmotive parent hparent
    simp only [mem_map_iff_of_injOn hinj hpath hparent, mem_map_iff_of_injOn hinj hstate hparent]
    split
    · refine ⟨?_, nofun⟩
      rw [← List.map_reverse]
      rfl
    · split
      · refine ⟨rfl, fun next hnext => ?_⟩
        obtain rfl : state = next := Except.ok.inj hnext
        exact hstate
      · have hstate' := List.forall_mem_cons.mpr ⟨hparent, hstate⟩
        refine ⟨ih (List.forall_mem_cons.mpr ⟨hparent, hpath⟩) hstate' hparent, fun next hnext => ?_⟩
        exact walk_forall (fun a ha => (hup a ha).2) hparent hstate' hnext

/-- A closure does not depend on what tells entities apart. -/
theorem closureWithin_map (hinj : ∀ a, motive a → ∀ b, motive b → image a = image b → a = b)
    (hup : ∀ a, motive a →
      parentsOf' (image a) = (parentsOf a).map image ∧ ∀ parent ∈ parentsOf a, motive parent)
    (depth : Nat) {starts : List α} (hstarts : ∀ a ∈ starts, motive a) :
    closureWithin parentsOf' depth (starts.map image) =
      ((closureWithin parentsOf depth starts).map (List.map image)).mapError (Cycle.map image) := by
  refine foldlM_map_of_steps (List.map image) (motive := fun visited => ∀ a ∈ visited, motive a)
    [] (by simp) fun state hstate start hstart => ?_
  have hstart := hstarts start hstart
  simp only [mem_map_iff_of_injOn hinj hstate hstart]
  split
  · refine ⟨rfl, fun next hnext => ?_⟩
    obtain rfl : state = next := Except.ok.inj hnext
    exact hstate
  · have hstate' := List.forall_mem_cons.mpr ⟨hstart, hstate⟩
    have hpath : ∀ a ∈ [start], motive a := by simpa using hstart
    refine ⟨walk_map hinj hup hpath hstate' hstart, fun next hnext => ?_⟩
    exact walk_forall (fun a ha => (hup a ha).2) hstart hstate' hnext

end

/-- Only registered entities have parents. -/
theorem mem_names_of_parents (g : Graph) (name : String) (h : g.parentsOf name ≠ []) :
    name ∈ g.names := by
  rw [← find?_isSome_iff, ← Option.ne_none_iff_isSome]
  intro hnone
  exact h (by simp [parentsOf, hnone])

theorem length_names (g : Graph) : g.names.length = g.size := List.length_map _

/-- A closure that succeeds settles all that it visits, its starts among them. -/
theorem closure_settles {g : Graph} {starts reached : List String}
    (h : g.closure starts = .ok reached) :
    (∀ other ∈ reached, Settled g.parentsOf reached other) ∧ starts ⊆ reached :=
  closureWithin_settles (mem_names_of_parents g) (Nat.le_of_eq g.length_names) h

/-- Every chain of parent links from the starts of a closure that succeeds ends. -/
theorem ends_of_closure {g : Graph} {starts reached : List String}
    (h : g.closure starts = .ok reached) : ∀ start ∈ starts, Ends g.parentsOf start := by
  obtain ⟨hsettled, hstarts⟩ := closure_settles h
  exact fun start hstart => (hsettled start (hstarts hstart)).ends

/-- A closure that succeeds finds exactly what its starts reach by parent links. -/
theorem mem_closure_iff {g : Graph} {starts reached : List String}
    (h : g.closure starts = .ok reached) (name : String) :
    name ∈ reached ↔ ∃ start ∈ starts, ReflTransGen (Link g.parentsOf) start name :=
  mem_closureWithin_iff (mem_names_of_parents g) (Nat.le_of_eq g.length_names) h name

/-- The bound on the depth of a closure is never met. -/
theorem closure_stable (g : Graph) {depth : Nat} (hdepth : g.size ≤ depth)
    (starts : List String) : closureWithin g.parentsOf depth starts = g.closure starts :=
  closureWithin_stable (mem_names_of_parents g) (Nat.le_trans (Nat.le_of_eq g.length_names) hdepth)
    (Nat.le_of_eq g.length_names) starts

end AccessMatrix.Graph
