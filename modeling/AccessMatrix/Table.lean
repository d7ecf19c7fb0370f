/-!
# Ordered tables

A table is a list of keyed entries in the order in which their keys were first stored. Storing
under a known key changes its entry and keeps its place; `fill` stores only under a new key.
-/

namespace AccessMatrix

/-- Keyed entries in order of first storing. -/
abbrev Table (κ ν : Type) := List (κ × ν)

namespace Table

variable {κ ν : Type} [DecidableEq κ]

/-- The entry stored under a key. -/
def get? (table : Table κ ν) (key : κ) : Option ν :=
  (table.find? fun entry => entry.1 = key).map (·.2)

/-- The keys in order of first storing. -/
def keys (table : Table κ ν) : List κ := table.map (·.1)

/-- Whether something is stored under a key. -/
def has (table : Table κ ν) (key : κ) : Bool := table.any fun entry => entry.1 = key

/-- Store under a key, in the key's old place if it has one. -/
def put : Table κ ν → κ → ν → Table κ ν
  | [], key, value => [(key, value)]
  | entry :: rest, key, value =>
    if entry.1 = key then (entry.1, value) :: rest else entry :: put rest key value

/-- Store under a key that holds nothing yet, and leave any other key alone. -/
def fill (table : Table κ ν) (key : κ) (value : ν) : Table κ ν :=
  if table.has key then table else table ++ [(key, value)]

/-- Store a list of entries one after the other. -/
def ofPairs (pairs : List (κ × ν)) : Table κ ν :=
  pairs.foldl (fun table entry => table.put entry.1 entry.2) []

theorem get?_nil (key : κ) : get? ([] : Table κ ν) key = none := rfl

theorem get?_cons (entry : κ × ν) (rest : Table κ ν) (key : κ) :
    get? (entry :: rest) key = if entry.1 = key then some entry.2 else get? rest key := by
  by_cases h : entry.1 = key <;> simp [get?, h]

theorem get?_append (left right : Table κ ν) (key : κ) :
    get? (left ++ right) key = (get? left key).or (get? right key) := by
  induction left with
  | nil => simp [get?_nil]
  | cons entry rest ih =>
    by_cases h : entry.1 = key <;> simp [get?_cons, h, ih]

theorem has_iff_get?_ne_none (table : Table κ ν) (key : κ) :
    table.has key = true ↔ table.get? key ≠ none := by
  induction table with
  | nil => simp [has, get?_nil]
  | cons entry rest ih =>
    by_cases h : entry.1 = key
    · simp [has, get?_cons, h]
    · simpa [has, get?_cons, h] using ih

/-- Storing is seen under the stored key and nowhere else. -/
theorem get?_put (table : Table κ ν) (key other : κ) (value : ν) :
    (table.put key value).get? other = if key = other then some value else table.get? other := by
  induction table with
  | nil => simp [put, get?_cons, get?_nil]
  | cons entry rest ih =>
    by_cases h : entry.1 = key
    · by_cases ho : key = other <;> simp [put, get?_cons, h, ho]
    · by_cases ho : entry.1 = other
      · have hk : key ≠ other := fun hko => h (ho.trans hko.symm)
        rw [put, if_neg h, get?_cons, get?_cons, if_pos ho, if_pos ho, if_neg hk]
      · simp [put, get?_cons, h, ho, ih]

/-- Filling never changes what a key already holds. -/
theorem get?_fill (table : Table κ ν) (key other : κ) (value : ν) :
    (table.fill key value).get? other =
      (table.get? other).or (if key = other then some value else none) := by
  by_cases hhas : table.has key = true
  · rw [fill, if_pos hhas]
    by_cases ho : key = other
    · subst ho
      obtain ⟨found, hfound⟩ := Option.ne_none_iff_exists'.mp ((has_iff_get?_ne_none table key).mp hhas)
      simp [hfound]
    · simp [ho]
  · rw [fill, if_neg hhas, get?_append]
    simp [get?_cons, get?_nil]

end Table

end AccessMatrix
