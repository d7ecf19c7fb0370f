import AccessMatrix.Proofs.Hierarchy.Branches
import Mathlib.Data.List.Forall2

/-!
# Rows and branches

A forest is laid out in rows, one for each name. A row knows the row that it stands under by its
number, so following the rows upward from it spells the branch that it ends. Each branch is spelled
from one row only, in whatever order the rows come.
-/

namespace AccessMatrix

/-- Following some rows upward from the one of a number spells some names, nearest first. -/
inductive Leads (rows : List Row) : Option Nat → List String → Prop where
  | top : Leads rows none []
  | up {above : Row} {way : List String} (habove : above ∈ rows)
      (h : Leads rows above.parent? way) : Leads rows (some above.number) (above.name :: way)

/-- Rows that are told apart by their numbers spell one thing from each number. -/
theorem Leads.unique {rows : List Row} (hnumbers : (rows.map Row.number).Nodup)
    {number? : Option Nat} {way way' : List String} (h : Leads rows number? way)
    (h' : Leads rows number? way') : way = way' := by
  induction h generalizing way' with
  | top =>
    cases h'
    rfl
  | @up above way habove _ ih =>
    generalize hnumber : some above.number = number? at h'
    cases h' with
    | top => contradiction
    | @up above' way' habove' h' =>
      obtain rfl : above = above' :=
        List.inj_on_of_nodup_map hnumbers habove habove' (Option.some.inj hnumber)
      rw [ih h']

section

variable {α β : Type} {r : α → β → Prop} {items : List α} {images : List β}

/-- Of lists related one by one, each item of the first has its image in the second. -/
theorem exists_image (h : List.Forall₂ r items images) :
    ∀ item ∈ items, ∃ image ∈ images, r item image := by
  induction h with
  | nil => simp
  | cons hr _ ih =>
    refine List.forall_mem_cons.mpr ⟨⟨_, List.mem_cons_self, hr⟩, fun item hitem => ?_⟩
    obtain ⟨image, himage, hr⟩ := ih item hitem
    exact ⟨image, List.mem_cons_of_mem _ himage, hr⟩

/-- Of lists related one by one, the first has no two items with one image if the second has none
twice and no item has two images. -/
theorem item_unique (h : List.Forall₂ r items images) (hnodup : images.Nodup)
    (hr : ∀ item image image', r item image → r item image' → image = image') :
    ∀ item ∈ items, ∀ item' ∈ items, ∀ image, r item image → r item' image → item = item' := by
  induction h with
  | nil => simp
  | @cons first image₀ rest images₀ hfirst hrest ih =>
    obtain ⟨hnew, hnodup⟩ := List.nodup_cons.mp hnodup
    have hapart (item) (hitem : item ∈ rest) (image) (himage : r item image) : ¬ r first image := by
      intro hsame
      obtain ⟨other, hother, hitem⟩ := exists_image hrest item hitem
      obtain rfl := hr item image other himage hitem
      obtain rfl := hr first image image₀ hsame hfirst
      exact hnew hother
    intro item hitem item' hitem' image himage himage'
    rcases List.mem_cons.mp hitem with rfl | hlater <;>
      rcases List.mem_cons.mp hitem' with rfl | hlater'
    · rfl
    · exact absurd himage (hapart item' hlater' image himage')
    · exact absurd himage' (hapart item hlater image himage)
    · exact ih hnodup item hlater item' hlater' image himage himage'

end

/-- A row ends a branch: the names above it and its own spell the branch, and its level is the length
of the branch. -/
structure Row.Ends (rows : List Row) (row : Row) (branch : List String) : Prop where
  spelled : ∃ way, Leads rows row.parent? way ∧ branch = way.reverse ++ [row.name]
  level : row.level = branch.length

namespace Forest

/-- The rows of a forest end its branches, one by one, below the names that they stand under. -/
theorem rowsBelow_end {rows : List Row} {forest : Forest} {level : Int} {parent? : Option Nat}
    {start : Nat} {way : List String} (hrows : forest.rowsBelow level parent? start ⊆ rows)
    (hway : Leads rows parent? way) (hlevel : level = way.length + 1) :
    List.Forall₂ (Row.Ends rows) (forest.rowsBelow level parent? start)
      (forest.branches.map (way.reverse ++ ·)) := by
  induction forest generalizing level parent? start way with
  | nil => exact .nil
  | cons name below rest ihBelow ihRest =>
    rw [rowsBelow] at hrows ⊢
    obtain ⟨hbelow, hrest⟩ := List.append_subset.mp hrows
    obtain ⟨hrow, hrest⟩ := List.cons_subset.mp hrest
    -- rows and branches are in one order, where those below a name come before it
    have hbranches : (cons name below rest).branches.map (way.reverse ++ ·) =
        below.branches.map ((name :: way).reverse ++ ·) ++
          (way.reverse ++ [name]) :: rest.branches.map (way.reverse ++ ·) := by
      simp [branches]
    rw [hbranches]
    refine List.rel_append ?_ (.cons ⟨⟨way, hway, rfl⟩, ?_⟩ ?_)
    · exact ihBelow hbelow (.up hrow hway) (by rw [hlevel, List.length_cons]; rfl)
    · simp [hlevel]
    · exact ihRest hrest hway hlevel

/-- Rows are numbered one after the other. -/
theorem number_rowsBelow_perm (level : Int) (parent? : Option Nat) (start : Nat)
    (forest : Forest) :
    ((forest.rowsBelow level parent? start).map Row.number).Perm
      (List.range' start forest.size) := by
  induction forest generalizing level parent? start with
  | nil => exact .nil
  | cons name below rest ihBelow ihRest =>
    rw [rowsBelow, List.map_append, List.map_cons, size, List.range'_succ, ← List.range'_append_1]
    exact ((ihBelow _ _ _).append ((ihRest _ _ _).cons start)).trans List.perm_middle

theorem rows_none_perm (forest : Forest) :
    (forest.rows none).Perm (forest.rowsBelow 1 none 0) :=
  List.mergeSort_perm _ _

/-- The rows of a forest are told apart by their numbers. -/
theorem nodup_number_rows (forest : Forest) : ((forest.rows none).map Row.number).Nodup :=
  ((forest.rows_none_perm.map Row.number).trans (number_rowsBelow_perm _ _ _ _)).nodup_iff.mpr
    List.nodup_range'

/-- The rows of a forest end its branches, one by one, if they are put into the order of the
branches. -/
theorem rows_end (forest : Forest) :
    List.Forall₂ (Row.Ends (forest.rows none)) (forest.rowsBelow 1 none 0) forest.branches := by
  simpa using rowsBelow_end forest.rows_none_perm.symm.subset .top (by rfl)

/-- Each row of a forest ends a branch. -/
theorem exists_branch {forest : Forest} {row : Row} (h : row ∈ forest.rows none) :
    ∃ branch ∈ forest.branches, row.Ends (forest.rows none) branch :=
  exists_image forest.rows_end row (forest.rows_none_perm.mem_iff.mp h)

/-- Each branch of a forest is ended by a row. -/
theorem exists_row {forest : Forest} {branch : List String} (h : branch ∈ forest.branches) :
    ∃ row ∈ forest.rows none, row.Ends (forest.rows none) branch := by
  obtain ⟨row, hrow, hends⟩ := exists_image forest.rows_end.flip branch h
  exact ⟨row, forest.rows_none_perm.mem_iff.mpr hrow, hends⟩

/-- No branch of a forest is ended by two rows, if no two names end it. -/
theorem row_unique {forest : Forest} (hforest : forest.branches.Nodup) {row row' : Row}
    (h : row ∈ forest.rows none) (h' : row' ∈ forest.rows none) {branch : List String}
    (hends : row.Ends (forest.rows none) branch) (hends' : row'.Ends (forest.rows none) branch) :
    row = row' := by
  refine item_unique forest.rows_end hforest (fun row branch branch' hends hends' => ?_)
    row (forest.rows_none_perm.mem_iff.mp h) row' (forest.rows_none_perm.mem_iff.mp h') branch
    hends hends'
  obtain ⟨way, hway, rfl⟩ := hends.spelled
  obtain ⟨way', hway', rfl⟩ := hends'.spelled
  rw [hway.unique forest.nodup_number_rows hway']

/-- A name is on as many rows as branches that it ends. -/
theorem count_name_rows (forest : Forest) (name : String) :
    ((forest.rows none).map Row.name).count name =
      (forest.branches.filter fun branch => branch.getLast? = some name).length := by
  have hlast : ((forest.rowsBelow 1 none 0).map Row.name).map some =
      forest.branches.map List.getLast? := by
    rw [List.map_map, ← List.forall₂_eq_eq_eq, List.forall₂_map_left_iff,
      List.forall₂_map_right_iff]
    refine forest.rows_end.imp fun row branch hends => ?_
    obtain ⟨way, -, rfl⟩ := hends.spelled
    exact List.getLast?_concat.symm
  have hcount := congrArg (List.countP fun last => last = some name) hlast
  rw [(forest.rows_none_perm.map Row.name).count_eq, List.count_eq_countP]
  simpa only [List.countP_map, Function.comp_def, Option.some.injEq, beq_eq_decide,
    ← List.countP_eq_length_filter] using hcount

end Forest

end AccessMatrix
