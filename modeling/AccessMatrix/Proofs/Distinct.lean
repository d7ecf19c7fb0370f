import Mathlib.Data.List.Nodup

/-!
# Lists without repeats

Dropping repeats keeps the first of equal items, and dropping them early or late is the same.
-/

namespace AccessMatrix

variable {α β : Type} [DecidableEq α]

/-- Dropping repeats leaves none. -/
theorem nodup_eraseDups (items : List α) : items.eraseDups.Nodup := by
  induction hlength : items.length using Nat.strongRecOn generalizing items with
  | ind length ih =>
    cases items with
    | nil => exact List.nodup_nil
    | cons item rest =>
      have hshorter : (rest.filter fun other => !other == item).length < length := by
        rw [← hlength]
        exact Nat.lt_succ_of_le (List.length_filter_le _ _)
      rw [List.eraseDups_cons]
      refine List.nodup_cons.mpr ⟨?_, ih _ hshorter _ rfl⟩
      simp [List.mem_eraseDups]

/-- A list without repeats is left as it is. -/
theorem eraseDups_of_nodup {items : List α} (h : items.Nodup) : items.eraseDups = items := by
  induction items with
  | nil => rfl
  | cons item rest ih =>
    obtain ⟨hitem, hrest⟩ := List.nodup_cons.mp h
    have hkept : rest.filter (fun other => !other == item) = rest := by
      refine List.filter_eq_self.mpr fun other hother => ?_
      simpa using fun heq : other = item => hitem (heq ▸ hother)
    rw [List.eraseDups_cons, hkept, ih hrest]

/-- Repeats can be dropped before or after some items are. -/
theorem eraseDups_filter (keeps : α → Bool) (items : List α) :
    (items.filter keeps).eraseDups = items.eraseDups.filter keeps := by
  induction hlength : items.length using Nat.strongRecOn generalizing items with
  | ind length ih =>
    cases items with
    | nil => rfl
    | cons item rest =>
      have hshorter : (rest.filter fun other => !other == item).length < length := by
        rw [← hlength]
        exact Nat.lt_succ_of_le (List.length_filter_le _ _)
      rw [List.eraseDups_cons, List.filter_cons, List.filter_cons, ← ih _ hshorter _ rfl]
      split
      · rw [List.eraseDups_cons, List.filter_filter, List.filter_filter]
        simp only [Bool.and_comm]
      · rename_i hdropped
        have hkept : (rest.filter fun other => !other == item).filter keeps = rest.filter keeps := by
          rw [List.filter_filter]
          refine List.filter_congr fun other _ => ?_
          by_cases hother : other = item <;> simp [hother, hdropped]
        rw [hkept]

/-- Repeats that were dropped already do not show in what comes after them. -/
theorem eraseDups_eraseDups_append (left right : List α) :
    (left.eraseDups ++ right).eraseDups = (left ++ right).eraseDups := by
  have hremoved : right.removeAll left.eraseDups = right.removeAll left := by
    simp [List.removeAll, List.mem_eraseDups]
  rw [List.eraseDups_append, List.eraseDups_append, hremoved,
    eraseDups_of_nodup (nodup_eraseDups left)]

/-- Items told apart by an image are dropped as their images are. -/
theorem map_eraseDupsBy (image : β → α) (items : List β) :
    (items.eraseDupsBy fun a b => image a = image b).map image = (items.map image).eraseDups := by
  induction hlength : items.length using Nat.strongRecOn generalizing items with
  | ind length ih =>
    cases items with
    | nil => rfl
    | cons item rest =>
      have hkept : (rest.filter fun other => decide (image other = image item) = false) =
          rest.filter ((fun found => !found == image item) ∘ image) := by
        refine List.filter_congr fun other _ => ?_
        by_cases h : image other = image item <;> simp [h]
      have hshorter : (rest.filter ((fun found => !found == image item) ∘ image)).length <
          length := by
        rw [← hlength]
        exact Nat.lt_succ_of_le (List.length_filter_le _ _)
      rw [List.eraseDupsBy_cons, List.map_cons, List.map_cons, List.eraseDups_cons, hkept,
        ih _ hshorter _ rfl, List.filter_map]

/-- Where an image tells items apart, dropping repeats does not depend on it. -/
theorem map_eraseDups_of_injOn [DecidableEq β] {image : β → α} {items : List β}
    (hinj : ∀ a ∈ items, ∀ b ∈ items, image a = image b → a = b) :
    items.eraseDups.map image = (items.map image).eraseDups := by
  induction hlength : items.length using Nat.strongRecOn generalizing items with
  | ind length ih =>
    cases items with
    | nil => rfl
    | cons item rest =>
      have hkept : (rest.filter fun other => !other == item) =
          rest.filter ((fun found => !found == image item) ∘ image) := by
        refine List.filter_congr fun other hother => ?_
        have heq : other = item ↔ image other = image item :=
          ⟨congrArg image, hinj other (List.mem_cons_of_mem _ hother) item List.mem_cons_self⟩
        by_cases h : other = item
        · simp [h]
        · simp [h, mt heq.mpr h]
      have hshorter : (rest.filter fun other => !other == item).length < length := by
        rw [← hlength]
        exact Nat.lt_succ_of_le (List.length_filter_le _ _)
      have hless : ∀ a ∈ rest.filter (fun other => !other == item), a ∈ item :: rest :=
        fun a ha => List.mem_cons_of_mem _ (List.mem_of_mem_filter ha)
      rw [List.eraseDups_cons, List.map_cons, List.map_cons, List.eraseDups_cons, List.filter_map,
        ← hkept, ih _ hshorter (fun a ha b hb => hinj a (hless a ha) b (hless b hb)) rfl]

/-- Of the items with one image, dropping repeats keeps the first. -/
theorem find?_eraseDupsBy (image : β → α) (items : List β) (sought : α) :
    ((items.eraseDupsBy fun a b => image a = image b).find? fun item => image item = sought) =
      items.find? fun item => image item = sought := by
  induction hlength : items.length using Nat.strongRecOn generalizing items with
  | ind length ih =>
    cases items with
    | nil => rfl
    | cons item rest =>
      rw [List.eraseDupsBy_cons]
      by_cases hitem : image item = sought
      · simp [hitem]
      · have hshorter : (rest.filter fun other =>
            decide (decide (image other = image item) = false)).length < length := by
          rw [← hlength]
          exact Nat.lt_succ_of_le (List.length_filter_le _ _)
        rw [List.find?_cons_of_neg (by simpa using hitem),
          List.find?_cons_of_neg (by simpa using hitem), ih _ hshorter _ rfl, List.find?_filter]
        congr 1
        funext other
        by_cases hother : image other = sought <;> simp [hother, Ne.symm hitem]

/-- Items told apart by an image are found by it. -/
theorem find?_eq_some_of_nodup {image : β → α} {items : List β} (h : (items.map image).Nodup)
    {item : β} (hitem : item ∈ items) :
    (items.find? fun other => image other = image item) = some item := by
  induction items with
  | nil => exact absurd hitem List.not_mem_nil
  | cons first rest ih =>
    obtain ⟨hfirst, hrest⟩ := List.nodup_cons.mp h
    rcases List.mem_cons.mp hitem with rfl | hitem
    · simp
    · have hne : image first ≠ image item := fun heq => hfirst (heq ▸ List.mem_map_of_mem hitem)
      rw [List.find?_cons_of_neg (by simpa using hne)]
      exact ih hrest hitem

/-- Items told apart by an image are found by it in whatever order they come. -/
theorem find?_eq_of_perm {image : β → α} {items items' : List β} (hperm : items.Perm items')
    (h : (items.map image).Nodup) (sought : α) :
    (items.find? fun item => image item = sought) =
      items'.find? fun item => image item = sought := by
  have h' : (items'.map image).Nodup := (hperm.map image).nodup_iff.mp h
  cases hfind : items.find? fun item => image item = sought with
  | none =>
    rw [eq_comm, List.find?_eq_none]
    intro item hitem
    exact List.find?_eq_none.mp hfind item (hperm.mem_iff.mpr hitem)
  | some item =>
    have himage : image item = sought := by simpa using List.find?_some hfind
    subst himage
    exact (find?_eq_some_of_nodup h' (hperm.mem_iff.mp (List.mem_of_find?_eq_some hfind))).symm

omit [DecidableEq α] in
/-- The last item of a kind is the one that no other of the kind comes after. -/
theorem getLast?_filter_eq_some_iff {kind : α → Bool} {items : List α} {item : α} :
    (items.filter kind).getLast? = some item ↔ ∃ before after, items = before ++ item :: after ∧
      kind item = true ∧ ∀ later ∈ after, kind later = false := by
  rw [List.getLast?_filter, List.find?_eq_some_iff_append]
  constructor
  · intro h
    obtain ⟨hkind, after, before, hitems, hafter⟩ := h
    refine ⟨before.reverse, after.reverse, ?_, hkind, fun later hlater => ?_⟩
    · rw [← List.reverse_reverse items, hitems]
      simp
    · simpa using hafter later (List.mem_reverse.mp hlater)
  · intro h
    obtain ⟨before, after, rfl, hkind, hafter⟩ := h
    refine ⟨hkind, after.reverse, before.reverse, by simp, fun later hlater => ?_⟩
    simpa using hafter later (List.mem_reverse.mp hlater)

omit [DecidableEq α] in
/-- Lists that are told apart by a mark of their items have no repeats together if none has one
alone. -/
theorem nodup_flatMap_of_mark {γ : Type} {f : β → List γ} (mark : γ → α) (label : β → α)
    {items : List β} (hmark : ∀ item ∈ items, ∀ found ∈ f item, mark found = label item)
    (hlabels : (items.map label).Nodup) (h : ∀ item ∈ items, (f item).Nodup) :
    (items.flatMap f).Nodup := by
  induction items with
  | nil => exact List.nodup_nil
  | cons item rest ih =>
    obtain ⟨hitem, hrest⟩ := List.nodup_cons.mp hlabels
    obtain ⟨hmarked, hmarks⟩ := List.forall_mem_cons.mp hmark
    obtain ⟨hfirst, hothers⟩ := List.forall_mem_cons.mp h
    rw [List.flatMap_cons]
    refine List.nodup_append.mpr ⟨hfirst, ih hmarks hrest hothers, ?_⟩
    intro found hfound _ hother hsame
    subst hsame
    obtain ⟨other, hmem, hother⟩ := List.mem_flatMap.mp hother
    refine hitem (List.mem_map.mpr ⟨other, hmem, ?_⟩)
    rw [← hmarks other hmem found hother, hmarked found hfound]

end AccessMatrix
