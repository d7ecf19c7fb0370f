import Mathlib.Data.List.Basic
import Mathlib.Order.Lattice

/-!
# Stable sorting

Sorting by a rank keeps the items of one rank in their order. So a list that rises by rank is the
sorted one as soon as it has the same items rank by rank.
-/

namespace AccessMatrix

variable {α β : Type} [LinearOrder β]

/-- Sort by a rank. -/
abbrev sortByRank (rank : α → β) (items : List α) : List α :=
  items.mergeSort fun a b => decide (rank a ≤ rank b)

theorem rank_trans (rank : α → β) (a b c : α) (hab : decide (rank a ≤ rank b) = true)
    (hbc : decide (rank b ≤ rank c) = true) : decide (rank a ≤ rank c) = true :=
  decide_eq_true (le_trans (of_decide_eq_true hab) (of_decide_eq_true hbc))

theorem rank_total (rank : α → β) (a b : α) :
    (decide (rank a ≤ rank b) || decide (rank b ≤ rank a)) = true := by
  simpa using le_total (rank a) (rank b)

/-- What is sorted by a rank rises. -/
theorem pairwise_sortByRank (rank : α → β) (items : List α) :
    (sortByRank rank items).Pairwise fun a b => rank a ≤ rank b := by
  simpa using List.pairwise_mergeSort (rank_trans rank) (rank_total rank) items

/-- Sorting by a rank keeps the items of one rank in their order. -/
theorem filter_sortByRank (rank : α → β) (items : List α) (r : β) :
    (sortByRank rank items).filter (fun item => rank item = r) =
      items.filter fun item => rank item = r := by
  have hlevel : (items.filter fun item => rank item = r).Pairwise
      fun a b => decide (rank a ≤ rank b) = true := by
    refine List.pairwise_of_forall_mem_list fun a ha b hb => ?_
    have ha' : rank a = r := by simpa using (List.mem_filter.mp ha).2
    have hb' : rank b = r := by simpa using (List.mem_filter.mp hb).2
    simp [ha', hb']
  have hsub := List.sublist_mergeSort (rank_trans rank) (rank_total rank) hlevel List.filter_sublist
  have hkept := hsub.filter fun item => rank item = r
  rw [List.filter_filter] at hkept
  simp only [Bool.and_self] at hkept
  exact (hkept.eq_of_length ((List.mergeSort_perm items _).filter _).length_eq.symm).symm

/-- Lists that rise by rank are one if they have the same items rank by rank. -/
theorem eq_of_filter_rank_eq {rank : α → β} {items items' : List α}
    (h : items.Pairwise fun a b => rank a ≤ rank b)
    (h' : items'.Pairwise fun a b => rank a ≤ rank b)
    (hsame : ∀ r, items.filter (fun item => rank item = r) =
      items'.filter fun item => rank item = r) : items = items' := by
  induction items generalizing items' with
  | nil =>
    cases items' with
    | nil => rfl
    | cons first rest => simpa using hsame (rank first)
  | cons first rest ih =>
    cases items' with
    | nil => simpa using hsame (rank first)
    | cons first' rest' =>
      obtain ⟨hfirst, hrest⟩ := List.pairwise_cons.mp h
      obtain ⟨hfirst', hrest'⟩ := List.pairwise_cons.mp h'
      -- each of the two first items is somewhere in the other list, so their ranks are the same
      have hle : rank first' ≤ rank first := by
        have hmem : first ∈ (first' :: rest').filter fun item => rank item = rank first := by
          rw [← hsame]
          simp
        rcases List.mem_cons.mp (List.mem_filter.mp hmem).1 with heq | hmem
        · rw [heq]
        · exact hfirst' _ hmem
      have hge : rank first ≤ rank first' := by
        have hmem : first' ∈ (first :: rest).filter fun item => rank item = rank first' := by
          rw [hsame]
          simp
        rcases List.mem_cons.mp (List.mem_filter.mp hmem).1 with heq | hmem
        · rw [heq]
        · exact hfirst _ hmem
      have hrank : rank first' = rank first := le_antisymm hle hge
      have hheads := hsame (rank first)
      simp only [List.filter_cons, hrank, decide_true, if_true] at hheads
      obtain ⟨rfl, -⟩ := List.cons.inj hheads
      refine congrArg _ (ih hrest hrest' fun r => ?_)
      have hr := hsame r
      simp only [List.filter_cons] at hr
      split at hr
      · exact (List.cons.inj hr).2
      · exact hr

/-- The list sorted by a rank is the one that rises and has the same items rank by rank. -/
theorem sortByRank_eq {rank : α → β} {items items' : List α}
    (h : items'.Pairwise fun a b => rank a ≤ rank b)
    (hsame : ∀ r, items'.filter (fun item => rank item = r) =
      items.filter fun item => rank item = r) : sortByRank rank items = items' :=
  eq_of_filter_rank_eq (pairwise_sortByRank rank items) h fun r => by
    rw [filter_sortByRank, hsame]

end AccessMatrix
