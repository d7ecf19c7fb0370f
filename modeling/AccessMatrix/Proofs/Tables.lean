import AccessMatrix.Proofs.Distinct
import AccessMatrix.Table
import Mathlib.Data.List.Induction

/-!
# Entries of tables

What is found under a key is an entry, and where keys are told apart every entry is found. Where
nothing is stored under a key, storing and filling put the new entry last, so entries whose keys are
told apart are stored as they come.
-/

namespace AccessMatrix.Table

variable {κ ν : Type} [DecidableEq κ]

/-- What is found under a key is an entry. -/
theorem mem_of_get? {table : Table κ ν} {key : κ} {value : ν} (h : table.get? key = some value) :
    (key, value) ∈ table := by
  obtain ⟨⟨found, held⟩, hfind, rfl⟩ := Option.map_eq_some_iff.mp h
  obtain rfl : found = key := by simpa using List.find?_some hfind
  exact List.mem_of_find?_eq_some hfind

/-- Where keys are told apart, an entry is found under its key. -/
theorem get?_of_mem {table : Table κ ν} (h : (table.map Prod.fst).Nodup) {key : κ} {value : ν}
    (hentry : (key, value) ∈ table) : table.get? key = some value := by
  rw [get?, find?_eq_some_of_nodup h hentry, Option.map_some]

/-- Storing one value under several keys is seen under these and nowhere else. -/
theorem get?_foldl_put (entries : List (κ × ν)) (table : Table κ ν) (value : ν)
    (h : ∀ entry ∈ entries, entry.2 = value) (key : κ) :
    get? (entries.foldl (fun table entry => table.put entry.1 entry.2) table) key =
      if key ∈ entries.map Prod.fst then some value else table.get? key := by
  induction entries using List.reverseRecOn with
  | nil => simp
  | append_singleton entries entry ih =>
    have hbefore := ih fun other hother => h other (List.mem_append_left _ hother)
    have hvalue : entry.2 = value := h entry (by simp)
    have hmem : key ∈ (entries ++ [entry]).map Prod.fst ↔
        key ∈ entries.map Prod.fst ∨ entry.1 = key := by
      rw [List.map_append, List.mem_append, List.map_singleton, List.mem_singleton,
        eq_comm (a := key)]
    rw [List.foldl_concat, get?_put, hbefore, hvalue]
    by_cases hkey : entry.1 = key <;> simp only [hmem, hkey, or_true, or_false, if_true, if_false]

/-- Storing under a key that holds nothing puts the entry last. -/
theorem put_of_fresh {table : Table κ ν} {key : κ} (h : table.has key = false) (value : ν) :
    table.put key value = table ++ [(key, value)] := by
  induction table with
  | nil => rfl
  | cons entry rest ih =>
    obtain ⟨hentry, hrest⟩ : entry.1 ≠ key ∧ has rest key = false := by simpa [has] using h
    rw [put, if_neg hentry, ih hrest, List.cons_append]

/-- Storing adds no other entry than the one stored. -/
theorem mem_put {table : Table κ ν} {key : κ} {value : ν} {entry : κ × ν}
    (h : entry ∈ table.put key value) : entry ∈ table ∨ entry = (key, value) := by
  induction table with
  | nil => exact .inr (List.mem_singleton.mp h)
  | cons first rest ih =>
    rw [put] at h
    split at h
    · rename_i hfirst
      rcases List.mem_cons.mp h with rfl | hrest
      · exact .inr (congrArg (·, value) hfirst)
      · exact .inl (List.mem_cons_of_mem _ hrest)
    · rcases List.mem_cons.mp h with rfl | hrest
      · exact .inl List.mem_cons_self
      · exact (ih hrest).imp_left (List.mem_cons_of_mem _)

/-- Filling is storing under a key that holds nothing, and nothing else. -/
theorem fill_eq_put (table : Table κ ν) (key : κ) (value : ν) :
    table.fill key value = if table.has key then table else table.put key value := by
  rw [fill]
  split
  · rfl
  · rename_i hfresh
    rw [put_of_fresh (by simpa using hfresh)]

/-- Filling adds no other entry than the one that it fills in. -/
theorem mem_fill {table : Table κ ν} {key : κ} {value : ν} {entry : κ × ν}
    (h : entry ∈ table.fill key value) : entry ∈ table ∨ entry = (key, value) := by
  rw [fill_eq_put] at h
  split at h
  · exact .inl h
  · exact mem_put h

theorem has_iff_mem_keys {table : Table κ ν} {key : κ} : table.has key = true ↔ key ∈ table.keys := by
  simp [has, keys]

theorem has_put {table : Table κ ν} {key other : κ} {value : ν} :
    (table.put key value).has other = true ↔ table.has other = true ∨ key = other := by
  simp only [has_iff_get?_ne_none, get?_put]
  by_cases hkey : key = other <;> simp [hkey]

theorem has_fill {table : Table κ ν} {key other : κ} {value : ν} :
    (table.fill key value).has other = true ↔ table.has other = true ∨ key = other := by
  simp only [has_iff_get?_ne_none, get?_fill]
  by_cases hkey : key = other <;> simp [hkey]

/-- Entries under keys that are told apart are stored as they are. -/
theorem ofPairs_of_nodup {pairs : List (κ × ν)} (h : (pairs.map Prod.fst).Nodup) :
    ofPairs pairs = pairs := by
  induction pairs using List.reverseRecOn with
  | nil => rfl
  | append_singleton pairs entry ih =>
    rw [List.map_append, List.nodup_append] at h
    obtain ⟨hpairs, -, hfresh⟩ := h
    have hkey : has (ofPairs pairs) entry.1 = false := by
      rw [ih hpairs, Bool.eq_false_iff, Ne, has_iff_mem_keys]
      exact fun hmem => hfresh entry.1 hmem entry.1 (by simp) rfl
    have hconcat : ofPairs (pairs ++ [entry]) = put (ofPairs pairs) entry.1 entry.2 := by
      simp [ofPairs]
    rw [hconcat, put_of_fresh hkey, ih hpairs]

end AccessMatrix.Table
