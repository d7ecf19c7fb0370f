import AccessMatrix.Proofs.Hierarchy.Rows
import AccessMatrix.Proofs.StableSort
import Mathlib.Algebra.GroupWithZero.Nat
import Mathlib.Algebra.Order.Group.Unbundled.Int

/-!
# The order of rows

A walk lays out a forest with each row after those below it. That is the post-order of the trees, and
the rows stand so under a given row. Without one they are sorted by level, and since sorting is stable
this is the order in which a queue of trees is worked off, the children of each tree joining at its
end. Every row then comes after the one that it stands under, and the forest can be grown again from
the rows.
-/

namespace AccessMatrix

/-- A tree with its topmost name on a row. -/
structure PlacedTree where
  row : Row
  below : Forest

/-- The trees of a forest on rows of one level. Rows are numbered in the order in which a walk from the
top meets their names. -/
def Forest.placed (level : Int) (parent? : Option Nat) : Nat → Forest → List PlacedTree
  | _, nil => []
  | start, cons name below rest =>
    ⟨⟨name, start, level, parent?⟩, below⟩ :: rest.placed level parent? (start + 1 + below.size)

namespace PlacedTree

/-- The trees just below the topmost name of a tree. -/
def children (tree : PlacedTree) : List PlacedTree :=
  tree.below.placed (tree.row.level + 1) (some tree.row.number) (tree.row.number + 1)

/-- The numbers of the rows of a tree. -/
def numbers (tree : PlacedTree) : List Nat := List.range' tree.row.number (tree.below.size + 1)

/-- The number of rows of some trees. -/
def count (trees : List PlacedTree) : Nat := (trees.map fun tree => tree.below.size + 1).sum

theorem count_cons (tree : PlacedTree) (rest : List PlacedTree) :
    count (tree :: rest) = tree.below.size + 1 + count rest := rfl

theorem count_append (trees later : List PlacedTree) :
    count (trees ++ later) = count trees + count later := by
  simp [count]

theorem count_placed (level : Int) (parent? : Option Nat) (start : Nat) (forest : Forest) :
    count (forest.placed level parent? start) = forest.size := by
  induction forest generalizing start with
  | nil => rfl
  | cons name below rest _ ih =>
    rw [Forest.placed, count_cons, ih, Forest.size]
    exact Nat.add_right_comm _ _ _

theorem count_children (tree : PlacedTree) : count tree.children = tree.below.size :=
  count_placed _ _ _ _

theorem count_flatMap_children (trees : List PlacedTree) :
    count (trees.flatMap children) + trees.length = count trees := by
  induction trees with
  | nil => rfl
  | cons tree rest ih =>
    rw [List.flatMap_cons, count_append, count_children, count_cons, List.length_cons]
    omega

/-- Work off a queue of trees: the topmost name of the first tree comes first, and the trees below it
join the queue at its end. -/
def breadthFirst : List PlacedTree → List Row
  | [] => []
  | tree :: rest => tree.row :: breadthFirst (rest ++ tree.children)
termination_by queue => count queue
decreasing_by
  rw [count_append, count_children, count_cons]
  omega

/-- The rows of trees one after the other, each topmost name after all that is below it. -/
def postOrder : List PlacedTree → List Row
  | [] => []
  | tree :: rest => postOrder tree.children ++ tree.row :: postOrder rest
termination_by trees => count trees
decreasing_by
  all_goals
    simp only [count_children, count_cons]
    omega

/-- The rows that stand a number of levels below the topmost names of some trees, from left to
right. -/
def layer : Nat → List PlacedTree → List Row
  | 0, trees => trees.map row
  | depth + 1, trees => layer depth (trees.flatMap children)

theorem layer_append (depth : Nat) (trees later : List PlacedTree) :
    layer depth (trees ++ later) = layer depth trees ++ layer depth later := by
  induction depth generalizing trees later with
  | zero => exact List.map_append
  | succ depth ih => rw [layer, List.flatMap_append, ih, layer, layer]

/-- The trees of a forest are on rows of one level, under one row. -/
theorem row_of_mem_placed {level : Int} {parent? : Option Nat} {start : Nat} {forest : Forest}
    {tree : PlacedTree} (h : tree ∈ forest.placed level parent? start) :
    tree.row.level = level ∧ tree.row.parent? = parent? := by
  induction forest generalizing start with
  | nil => exact absurd h List.not_mem_nil
  | cons name below rest _ ih =>
    rcases List.mem_cons.mp h with rfl | h
    · exact ⟨rfl, rfl⟩
    · exact ih h

theorem row_of_mem_children {tree child : PlacedTree} (h : child ∈ tree.children) :
    child.row.level = tree.row.level + 1 ∧ child.row.parent? = some tree.row.number :=
  row_of_mem_placed h

theorem level_of_mem_flatMap_children {trees : List PlacedTree} {level : Int}
    (h : ∀ tree ∈ trees, tree.row.level = level) :
    ∀ child ∈ trees.flatMap children, child.row.level = level + 1 := by
  intro child hchild
  obtain ⟨tree, htree, hchild⟩ := List.mem_flatMap.mp hchild
  rw [(row_of_mem_children hchild).1, h tree htree]

/-- A walk lays out a forest in post-order. -/
theorem rowsBelow_eq_postOrder (level : Int) (parent? : Option Nat) (start : Nat)
    (forest : Forest) :
    forest.rowsBelow level parent? start = postOrder (forest.placed level parent? start) := by
  induction forest generalizing level parent? start with
  | nil => rw [Forest.placed, postOrder, Forest.rowsBelow]
  | cons name below rest ihBelow ihRest =>
    rw [Forest.rowsBelow, Forest.placed, postOrder, ihBelow, ihRest]
    rfl

/-- Rows of trees are not above their topmost names. -/
theorem le_level_of_mem_postOrder {level : Int} {trees : List PlacedTree}
    (h : ∀ tree ∈ trees, level ≤ tree.row.level) : ∀ row ∈ postOrder trees, level ≤ row.level := by
  fun_induction postOrder trees with
  | case1 => simp
  | case2 tree rest ihBelow ihRest =>
    obtain ⟨htree, hrest⟩ := List.forall_mem_cons.mp h
    have hbelow (child) (hchild : child ∈ tree.children) : level ≤ child.row.level := by
      have hlevel := (row_of_mem_children hchild).1
      omega
    exact List.forall_mem_append.mpr
      ⟨ihBelow hbelow, List.forall_mem_cons.mpr ⟨htree, ihRest hrest⟩⟩

/-- Rows of a queue are not above the topmost names in it. -/
theorem le_level_of_mem_breadthFirst {level : Int} {queue : List PlacedTree}
    (h : ∀ tree ∈ queue, level ≤ tree.row.level) :
    ∀ row ∈ breadthFirst queue, level ≤ row.level := by
  fun_induction breadthFirst queue with
  | case1 => simp
  | case2 tree rest ih =>
    obtain ⟨htree, hrest⟩ := List.forall_mem_cons.mp h
    refine List.forall_mem_cons.mpr ⟨htree, ih ?_⟩
    refine List.forall_mem_append.mpr ⟨hrest, fun child hchild => ?_⟩
    have hlevel := (row_of_mem_children hchild).1
    omega

/-- The rows of one level are the same in post-order as from left to right. -/
theorem filter_level_postOrder {level : Int} {trees : List PlacedTree}
    (h : ∀ tree ∈ trees, tree.row.level = level) (depth : Nat) :
    (postOrder trees).filter (fun row => row.level = level + depth) = layer depth trees := by
  fun_induction postOrder trees generalizing level depth with
  | case1 => induction depth <;> simp_all [layer]
  | case2 tree rest ihBelow ihRest =>
    obtain ⟨htree, hrest⟩ := List.forall_mem_cons.mp h
    have hchildren (child) (hchild : child ∈ tree.children) : child.row.level = level + 1 := by
      rw [(row_of_mem_children hchild).1, htree]
    rw [List.filter_append, List.filter_cons, ihRest hrest]
    cases depth with
    | zero =>
      have hlower : (postOrder tree.children).filter (fun row => row.level = level + (0 : Nat)) =
          [] := by
        refine List.filter_eq_nil_iff.mpr fun row hrow => ?_
        have hlevel := le_level_of_mem_postOrder (fun child hchild =>
          Int.le_of_eq (hchildren child hchild).symm) row hrow
        simp only [decide_eq_true_eq]
        omega
      rw [hlower, if_pos (by simp [htree])]
      rfl
    | succ depth =>
      have hnext : level + ((depth + 1 : Nat) : Int) = level + 1 + (depth : Int) := by omega
      have hbelow := ihBelow hchildren depth
      rw [← hnext] at hbelow
      rw [hbelow, if_neg (by simp only [decide_eq_true_eq]; omega), layer, layer,
        List.flatMap_cons, layer_append]

/-- Trees at the front of a queue come first, and what is below them comes after the whole queue. -/
theorem breadthFirst_append (queue later : List PlacedTree) :
    breadthFirst (queue ++ later) =
      queue.map row ++ breadthFirst (later ++ queue.flatMap children) := by
  induction queue generalizing later with
  | nil => simp
  | cons tree rest ih =>
    rw [List.cons_append, breadthFirst, List.append_assoc, ih, List.map_cons, List.flatMap_cons,
      List.append_assoc, List.cons_append]

/-- A queue is worked off level by level. -/
theorem breadthFirst_eq (queue : List PlacedTree) :
    breadthFirst queue = queue.map row ++ breadthFirst (queue.flatMap children) := by
  simpa using breadthFirst_append queue []

/-- The rows of one level stand from left to right where a queue is worked off. -/
theorem filter_level_breadthFirst {level : Int} {queue : List PlacedTree}
    (h : ∀ tree ∈ queue, tree.row.level = level) (depth : Nat) :
    (breadthFirst queue).filter (fun row => row.level = level + depth) = layer depth queue := by
  induction depth generalizing level queue with
  | zero =>
    have htop : (queue.map row).filter (fun row => row.level = level + (0 : Nat)) =
        queue.map row := by
      refine List.filter_eq_self.mpr fun row hrow => ?_
      obtain ⟨tree, htree, rfl⟩ := List.mem_map.mp hrow
      simp [h tree htree]
    have hlower : (breadthFirst (queue.flatMap children)).filter
        (fun row => row.level = level + (0 : Nat)) = [] := by
      refine List.filter_eq_nil_iff.mpr fun row hrow => ?_
      have hlevel := le_level_of_mem_breadthFirst (fun child hchild =>
        Int.le_of_eq (level_of_mem_flatMap_children h child hchild).symm) row hrow
      simp only [decide_eq_true_eq]
      omega
    rw [breadthFirst_eq, List.filter_append, htop, hlower, List.append_nil, layer]
  | succ depth ih =>
    have hnext : level + ((depth + 1 : Nat) : Int) = level + 1 + (depth : Int) := by omega
    have htop : (queue.map row).filter (fun row => row.level = level + 1 + (depth : Int)) = [] := by
      refine List.filter_eq_nil_iff.mpr fun row hrow => ?_
      obtain ⟨tree, htree, rfl⟩ := List.mem_map.mp hrow
      simp only [h tree htree, decide_eq_true_eq]
      omega
    rw [breadthFirst_eq, List.filter_append, hnext, htop, List.nil_append,
      ih (level_of_mem_flatMap_children h), layer]

/-- Where a queue is worked off, levels do not fall. -/
theorem pairwise_level_breadthFirst {level : Int} {queue : List PlacedTree}
    (h : ∀ tree ∈ queue, tree.row.level = level) :
    (breadthFirst queue).Pairwise fun a b => a.level ≤ b.level := by
  induction hcount : count queue using Nat.strongRecOn generalizing level queue with
  | ind total ih =>
    cases queue with
    | nil => simp [breadthFirst]
    | cons tree rest =>
      have hlower := level_of_mem_flatMap_children h
      have hfewer : count ((tree :: rest).flatMap children) < total := by
        have hsum := count_flatMap_children (tree :: rest)
        rw [List.length_cons] at hsum
        omega
      rw [breadthFirst_eq]
      refine List.pairwise_append.mpr ⟨?_, ih _ hfewer hlower rfl, ?_⟩
      · exact List.pairwise_map.mpr (List.pairwise_of_forall_mem_list fun a ha b hb =>
          Int.le_of_eq ((h a ha).trans (h b hb).symm))
      · intro a ha b hb
        obtain ⟨tree, htree, rfl⟩ := List.mem_map.mp ha
        have hb := le_level_of_mem_breadthFirst (fun child hchild =>
          Int.le_of_eq (hlower child hchild).symm) b hb
        have ha := h tree htree
        omega

/-- The rows of the trees of a forest are numbered one after the other. -/
theorem numbers_placed (level : Int) (parent? : Option Nat) (start : Nat) (forest : Forest) :
    (forest.placed level parent? start).flatMap numbers = List.range' start forest.size := by
  induction forest generalizing start with
  | nil => rfl
  | cons name below rest _ ih =>
    have hsize : (Forest.cons name below rest).size = below.size + 1 + rest.size :=
      Nat.add_right_comm _ _ _
    rw [Forest.placed, List.flatMap_cons, ih, hsize, ← List.range'_append_1, numbers, Nat.add_assoc,
      Nat.add_comm 1]

theorem numbers_eq (tree : PlacedTree) :
    tree.numbers = tree.row.number :: tree.children.flatMap numbers := by
  rw [numbers, children, numbers_placed, List.range'_succ]

end PlacedTree

/-- A row stands under one of some rows and one level below it, or it is at the top. -/
def Row.StandsUnder (rows : List Row) (level : Int) (parent? : Option Nat) (row : Row) : Prop :=
  (row.level = level ∧ row.parent? = parent?) ∨
    ∃ above ∈ rows, row.level = above.level + 1 ∧ row.parent? = some above.number

namespace PlacedTree

variable {level : Int} {parent? : Option Nat}

theorem standsUnder_of_mem_children {tree child : PlacedTree} {rows : List Row}
    (h : child ∈ tree.children) (hrow : tree.row ∈ rows) :
    child.row.StandsUnder rows level parent? :=
  .inr ⟨tree.row, hrow, row_of_mem_children h⟩

/-- Where a queue is worked off, each row stands under one before it. -/
theorem standsUnder_of_breadthFirst {done : List Row} {queue : List PlacedTree}
    (h : ∀ tree ∈ queue, tree.row.StandsUnder done level parent?) {before : List Row} {row : Row}
    {after : List Row} (hrows : breadthFirst queue = before ++ row :: after) :
    row.StandsUnder (done ++ before) level parent? := by
  fun_induction breadthFirst queue generalizing done before with
  | case1 => exact absurd hrows (by simp)
  | case2 tree rest ih =>
    obtain ⟨htree, hrest⟩ := List.forall_mem_cons.mp h
    cases before with
    | nil =>
      obtain ⟨rfl, -⟩ := List.cons.inj hrows
      simpa using htree
    | cons first before =>
      obtain ⟨rfl, hlater⟩ := List.cons.inj hrows
      have hqueue : ∀ next ∈ rest ++ tree.children,
          next.row.StandsUnder (done ++ [tree.row]) level parent? := by
        refine List.forall_mem_append.mpr ⟨fun next hnext => ?_, fun child hchild => ?_⟩
        · exact (hrest next hnext).imp_right fun ⟨above, habove, hunder⟩ =>
            ⟨above, List.mem_append_left _ habove, hunder⟩
        · exact standsUnder_of_mem_children hchild (by simp)
      simpa using ih hqueue hlater

/-- In post-order, each row stands under one after it. -/
theorem standsUnder_of_postOrder {trees : List PlacedTree}
    (h : ∀ tree ∈ trees, tree.row.level = level ∧ tree.row.parent? = parent?)
    {before : List Row} {row : Row} {after : List Row}
    (hrows : postOrder trees = before ++ row :: after) : row.StandsUnder after level parent? := by
  fun_induction postOrder trees generalizing level parent? before after with
  | case1 => exact absurd hrows (by simp)
  | case2 tree rest ihBelow ihRest =>
    obtain ⟨htree, hrest⟩ := List.forall_mem_cons.mp h
    rcases List.append_eq_append_iff.mp hrows with ⟨inner, rfl, hinner⟩ | ⟨inner, hbelow, hinner⟩
    · -- the row is the topmost one of the tree or in a tree after it
      cases inner with
      | nil =>
        obtain ⟨rfl, -⟩ := List.cons.inj hinner
        exact .inl htree
      | cons first inner => exact ihRest hrest (List.cons.inj hinner).2
    · cases inner with
      | nil =>
        obtain ⟨rfl, -⟩ := List.cons.inj hinner
        exact .inl htree
      | cons first inner =>
        -- the row is below the topmost one of the tree, which comes after it
        obtain ⟨rfl, rfl⟩ := List.cons.inj hinner
        rcases ihBelow (fun child hchild => row_of_mem_children hchild) hbelow with
          ⟨hlevel, hparent⟩ | ⟨above, habove, hunder⟩
        · exact .inr ⟨tree.row, by simp, hlevel, hparent⟩
        · exact .inr ⟨above, List.mem_append_left _ habove, hunder⟩

end PlacedTree

/-- The forest that rows spell under a number: the names of the rows that refer to it, in their order,
each over the forest that later rows spell under the row's own number. -/
def Forest.ofRows : List Row → Option Nat → Forest
  | [], _ => nil
  | row :: later, above? =>
    if row.parent? = above? then
      cons row.name (ofRows later (some row.number)) (ofRows later above?)
    else ofRows later above?

namespace PlacedTree

/-- The trees under a number, put together to a forest. -/
def gather (above? : Option Nat) : List PlacedTree → Forest
  | [] => .nil
  | tree :: rest =>
    if tree.row.parent? = above? then .cons tree.row.name tree.below (gather above? rest)
    else gather above? rest

theorem gather_placed (level : Int) (parent? : Option Nat) (start : Nat) (forest : Forest) :
    gather parent? (forest.placed level parent? start) = forest := by
  induction forest generalizing start with
  | nil => rfl
  | cons name below rest _ ih => rw [Forest.placed, gather, if_pos rfl, ih]

/-- The trees that stand elsewhere are not put together. -/
theorem gather_filter (above? : Option Nat) (trees : List PlacedTree) :
    gather above? (trees.filter fun tree => tree.row.parent? = above?) = gather above? trees := by
  induction trees with
  | nil => rfl
  | cons tree rest ih =>
    rw [List.filter_cons, gather]
    split
    · rename_i htree
      rw [gather, ih, if_pos (of_decide_eq_true htree)]
    · rename_i htree
      rw [ih, if_neg (fun heq => htree (decide_eq_true heq))]

theorem gather_append_left {above? : Option Nat} (trees : List PlacedTree)
    {later : List PlacedTree} (h : ∀ tree ∈ later, tree.row.parent? ≠ above?) :
    gather above? (trees ++ later) = gather above? trees := by
  have hlater : later.filter (fun tree => tree.row.parent? = above?) = [] :=
    List.filter_eq_nil_iff.mpr fun tree htree => by simpa using h tree htree
  rw [← gather_filter, List.filter_append, hlater, List.append_nil, gather_filter]

theorem gather_append_right {above? : Option Nat} {trees : List PlacedTree}
    (later : List PlacedTree) (h : ∀ tree ∈ trees, tree.row.parent? ≠ above?) :
    gather above? (trees ++ later) = gather above? later := by
  have htrees : trees.filter (fun tree => tree.row.parent? = above?) = [] :=
    List.filter_eq_nil_iff.mpr fun tree htree => by simpa using h tree htree
  rw [← gather_filter, List.filter_append, htrees, List.nil_append, gather_filter]

/-- The trees of a queue have rows of their own and none of them stands in another. -/
structure Apart (queue : List PlacedTree) : Prop where
  nodup : (queue.flatMap numbers).Nodup
  outside : ∀ tree ∈ queue, ∀ number ∈ queue.flatMap numbers, tree.row.parent? ≠ some number

/-- Taking the numbers of the first tree's top away, the rest of a queue and the children of its first
tree have the same numbers. -/
theorem numbers_cons_perm (tree : PlacedTree) (rest : List PlacedTree) :
    ((tree :: rest).flatMap numbers).Perm
      (tree.row.number :: (rest ++ tree.children).flatMap numbers) := by
  rw [List.flatMap_cons, List.flatMap_append, numbers_eq, List.cons_append]
  exact List.perm_append_comm.cons _

/-- Working off a queue keeps its trees apart. -/
theorem Apart.next {tree : PlacedTree} {rest : List PlacedTree} (h : Apart (tree :: rest)) :
    tree.row.number ∉ (rest ++ tree.children).flatMap numbers ∧ Apart (rest ++ tree.children) := by
  have hperm := numbers_cons_perm tree rest
  obtain ⟨hnew, hnodup⟩ := List.nodup_cons.mp (hperm.nodup_iff.mp h.nodup)
  refine ⟨hnew, hnodup, List.forall_mem_append.mpr ⟨fun next hnext number hnumber => ?_,
    fun child hchild number hnumber heq => ?_⟩⟩
  · exact h.outside next (List.mem_cons_of_mem _ hnext) number
      (hperm.mem_iff.mpr (List.mem_cons_of_mem _ hnumber))
  · rw [(row_of_mem_children hchild).2] at heq
    obtain rfl := Option.some.inj heq
    exact hnew hnumber

/-- The rows of a queue spell, under a number that is none of theirs, the trees that stand there. -/
theorem ofRows_breadthFirst {queue : List PlacedTree} (h : Apart queue) {above? : Option Nat}
    (habove : ∀ number ∈ queue.flatMap numbers, above? ≠ some number) :
    Forest.ofRows (breadthFirst queue) above? = gather above? queue := by
  fun_induction breadthFirst queue generalizing above? with
  | case1 => rfl
  | case2 tree rest ih =>
    obtain ⟨hnew, hnext⟩ := h.next
    have hperm := numbers_cons_perm tree rest
    have htop : tree.row.number ∈ (tree :: rest).flatMap numbers :=
      hperm.mem_iff.mpr List.mem_cons_self
    have hbelow : Forest.ofRows (breadthFirst (rest ++ tree.children)) (some tree.row.number) =
        tree.below := by
      have hother (number) (hnumber : number ∈ (rest ++ tree.children).flatMap numbers) :
          some tree.row.number ≠ some number := by
        rintro heq
        obtain rfl := Option.some.inj heq
        exact hnew hnumber
      rw [ih hnext hother, gather_append_right _ fun next hmem =>
          h.outside next (List.mem_cons_of_mem _ hmem) _ htop,
        children, gather_placed]
    have hrest : Forest.ofRows (breadthFirst (rest ++ tree.children)) above? =
        gather above? rest := by
      rw [ih hnext fun number hnumber =>
          habove number (hperm.mem_iff.mpr (List.mem_cons_of_mem _ hnumber)),
        gather_append_left _ fun child hchild heq => habove _ htop ?_]
      rw [← heq, (row_of_mem_children hchild).2]
    rw [Forest.ofRows, hbelow, hrest, gather]

end PlacedTree

namespace Forest

open PlacedTree

/-- The rows of a forest are in the order in which a queue of its trees is worked off. -/
theorem rows_none_eq_breadthFirst (forest : Forest) :
    forest.rows none = breadthFirst (forest.placed 1 none 0) := by
  have htop (tree) (htree : tree ∈ forest.placed 1 none 0) : tree.row.level = 1 :=
    (row_of_mem_placed htree).1
  have hle (tree) (htree : tree ∈ forest.placed 1 none 0) : 1 ≤ tree.row.level :=
    Int.le_of_eq (htop tree htree).symm
  rw [rows, rowsBelow_eq_postOrder]
  refine sortByRank_eq (pairwise_level_breadthFirst htop) fun level => ?_
  by_cases hlevel : 1 ≤ level
  · obtain ⟨depth, rfl⟩ := Int.le.dest hlevel
    rw [filter_level_breadthFirst htop, filter_level_postOrder htop]
  · -- no row is above the first level
    have hnone {items : List Row} (h : ∀ row ∈ items, 1 ≤ row.level) :
        items.filter (fun row => row.level = level) = [] := by
      refine List.filter_eq_nil_iff.mpr fun row hrow => ?_
      have hrow := h row hrow
      simp only [decide_eq_true_eq]
      omega
    rw [hnone (le_level_of_mem_breadthFirst hle), hnone (le_level_of_mem_postOrder hle)]

/-- The rows of a forest spell it. -/
theorem ofRows_rows (forest : Forest) : ofRows (forest.rows none) none = forest := by
  have hnodup : ((forest.placed 1 none 0).flatMap numbers).Nodup := by
    rw [numbers_placed]
    exact List.nodup_range'
  rw [rows_none_eq_breadthFirst, ofRows_breadthFirst ⟨hnodup, fun tree htree number _ => ?_⟩ (by simp),
    gather_placed]
  rw [(row_of_mem_placed htree).2]
  exact nofun

/-- The rows of one level end the branches of that length, one by one and in their order. -/
theorem rows_of_level_end (forest : Forest) (level : Int) :
    List.Forall₂ (Row.Ends (forest.rows none))
      ((forest.rows none).filter fun row => row.level = level)
      (forest.branches.filter fun branch => (branch.length : Int) = level) := by
  have hfilter := filter_sortByRank Row.level (forest.rowsBelow 1 none 0) level
  change (forest.rows none).filter _ = _ at hfilter
  rw [hfilter]
  refine List.rel_filter (fun row branch hends => ?_) forest.rows_end
  simp [hends.level]

/-- Rows carry the last names of branches, and those of a walk that starts at some level are as far
below the one before it as branches are long. -/
theorem rowsBelow_last (level : Int) (parent? : Option Nat) (start : Nat) (forest : Forest) :
    List.Forall₂ (fun row branch => branch.getLast? = some row.name ∧
      row.level + 1 = level + branch.length) (forest.rowsBelow level parent? start)
      forest.branches := by
  induction forest generalizing level parent? start with
  | nil => exact .nil
  | cons name below rest ihBelow ihRest =>
    rw [rowsBelow, branches]
    refine List.rel_append (List.forall₂_map_right_iff.mpr ?_) (.cons ⟨rfl, by simp⟩ ?_)
    · refine (ihBelow (level + 1) (some start) (start + 1)).imp fun row branch hends => ⟨?_, ?_⟩
      · rw [List.getLast?_cons, hends.1]
        rfl
      · rw [List.length_cons]
        omega
    · exact ihRest level parent? _

/-- Rows are the level-order traversal of a forest. Each name has one row for each of its places, and
the names and numbers on the rows tell the forest. -/
structure LevelOrder (forest : Forest) (rows : List Row) : Prop where
  traversal : rows = breadthFirst (forest.placed 1 none 0)
  numbers : (rows.map Row.number).Nodup
  occurrences : ∃ order, order.Perm rows ∧ List.Forall₂ (Row.Ends rows) order forest.branches
  rising : rows.Pairwise fun row later => row.level ≤ later.level
  leftToRight : ∀ level : Int,
    List.Forall₂ (Row.Ends rows) (rows.filter fun row => row.level = level)
      (forest.branches.filter fun branch => (branch.length : Int) = level)
  under : ∀ before row after, rows = before ++ row :: after → row.StandsUnder before 1 none
  regrown : ofRows rows none = forest

/-- Rows are the post-order traversal of a forest under a given row. -/
structure PostOrder (forest : Forest) (given : Row) (rows : List Row) : Prop where
  traversal : rows =
    postOrder (forest.placed (given.level + 1) (some given.number) (given.number + 1))
  numbers : (given.number :: rows.map Row.number).Nodup
  occurrences : List.Forall₂ (fun row branch => branch.getLast? = some row.name ∧
    row.level = given.level + branch.length) rows forest.branches
  under : ∀ before row after, rows = before ++ row :: after →
    row.StandsUnder after (given.level + 1) (some given.number)

/-- The rows of a forest are its level-order traversal, and under a given row they are its post-order
traversal. -/
theorem rows_traverse (forest : Forest) :
    forest.LevelOrder (forest.rows none) ∧
      ∀ given, forest.PostOrder given (forest.rows (some given)) := by
  constructor
  · have htop (tree) (htree : tree ∈ forest.placed 1 none 0) :
        tree.row.StandsUnder [] 1 none := .inl (row_of_mem_placed htree)
    exact {
      traversal := forest.rows_none_eq_breadthFirst
      numbers := forest.nodup_number_rows
      occurrences := ⟨_, forest.rows_none_perm.symm, forest.rows_end⟩
      rising := pairwise_sortByRank Row.level _
      leftToRight := forest.rows_of_level_end
      under := fun before row after hrows =>
        standsUnder_of_breadthFirst htop (forest.rows_none_eq_breadthFirst ▸ hrows)
      regrown := forest.ofRows_rows }
  · intro given
    have hrows := rowsBelow_eq_postOrder (given.level + 1) (some given.number) (given.number + 1)
      forest
    have hnumbers := number_rowsBelow_perm (given.level + 1) (some given.number)
      (given.number + 1) forest
    have hends := rowsBelow_last (given.level + 1) (some given.number) (given.number + 1) forest
    exact {
      traversal := hrows
      numbers := (hnumbers.cons given.number).nodup_iff.mpr
        (List.range'_succ ▸ List.nodup_range' : (List.range' given.number (forest.size + 1)).Nodup)
      occurrences := hends.imp fun row branch hrow => ⟨hrow.1, by omega⟩
      under := fun before row after hsplit =>
        standsUnder_of_postOrder (fun tree => row_of_mem_placed) (hrows.symm.trans hsplit) }

end Forest

end AccessMatrix
