import AccessMatrix.Proofs.Outcome
import AccessMatrix.Value.Json
import Mathlib.Data.List.Induction
import Mathlib.Data.List.Nodup

/-!
# Entries under labels and names

Storing something under a label keeps the labels that were there, and all that is stored under others.
The entries of a mapping are told by the values under each name: storing an entry is seen under its own
name only, and after storing one by one the last under a name stays. The JSON text of a mapping exists
exactly if its keys and values have one.
-/

namespace AccessMatrix

open Outcome

namespace Value

/-- The same key has the same text. -/
theorem asText?_of_sameKey {v key : Value} (h : v.sameKey key = true) : v.asText? = key.asText? := by
  cases v <;> cases key <;> simp_all [sameKey, asText?]

/-- A text is the same key as what has that text, and as nothing else. -/
theorem sameKey_of_asText? {key : Value} {text : String} (h : key.asText? = some text) (v : Value) :
    v.sameKey key = decide (v.asText? = some text) := by
  cases key <;> cases v <;> simp_all [sameKey, asText?, beq_eq_decide]

section

variable {α β : Type}

/-- Whether something is stored under a label is told by the labels. -/
theorem isSome_lookup (entries : List (Value × α)) (label : Value) :
    (lookup entries label).isSome = (entries.map Prod.fst).any (·.sameKey label) := by
  simp only [lookup, Option.isSome_map, List.any_map]
  induction entries with
  | nil => rfl
  | cons entry rest ih =>
    rw [List.find?_cons, List.any_cons]
    cases h : entry.1.sameKey label <;> simp_all

/-- Labels are stored alike whatever is put aside under them. -/
theorem map_fst_putEntry {entries : List (Value × α)} {entries' : List (Value × β)}
    (h : entries'.map Prod.fst = entries.map Prod.fst) (label : Value) (a : α) (b : β) :
    (putEntry entries' label b).map Prod.fst = (putEntry entries label a).map Prod.fst := by
  induction entries generalizing entries' with
  | nil =>
    obtain rfl : entries' = [] := by simpa using h
    rfl
  | cons entry rest ih =>
    obtain ⟨entry', rest', rfl, hentry, hrest⟩ := List.map_eq_cons_iff.mp h
    rw [putEntry, putEntry, hentry]
    split
    · exact congrArg₂ List.cons rfl hrest
    · exact congrArg₂ List.cons hentry (ih hrest)

/-- Storing something under a label does the same to what is told of all that is stored. -/
theorem map_putEntry (f : α → β) (entries : List (Value × α)) (label : Value) (a : α) :
    (putEntry entries label a).map (fun entry => (entry.1, f entry.2)) =
      putEntry (entries.map fun entry => (entry.1, f entry.2)) label (f a) := by
  induction entries with
  | nil => rfl
  | cons entry rest ih =>
    rw [putEntry, List.map_cons, putEntry]
    split
    · rfl
    · rw [List.map_cons, ih]

theorem lookup_map (f : α → β) (entries : List (Value × α)) (label : Value) :
    lookup (entries.map fun entry => (entry.1, f entry.2)) label =
      (lookup entries label).map f := by
  simp only [lookup, List.find?_map, Option.map_map]
  rfl

/-- What is stored after something was stored under a label was so before, or is the new thing, under the
label or one that was there. -/
theorem mem_putEntry {entries : List (Value × α)} {label : Value} {a : α} {entry : Value × α}
    (h : entry ∈ putEntry entries label a) :
    entry ∈ entries ∨ (entry.2 = a ∧ (entry.1 = label ∨ entry.1 ∈ entries.map Prod.fst)) := by
  induction entries with
  | nil =>
    obtain rfl := List.mem_singleton.mp h
    exact .inr ⟨rfl, .inl rfl⟩
  | cons first rest ih =>
    rw [putEntry] at h
    split at h
    · rcases List.mem_cons.mp h with rfl | hrest
      · exact .inr ⟨rfl, .inr List.mem_cons_self⟩
      · exact .inl (List.mem_cons_of_mem _ hrest)
    · rcases List.mem_cons.mp h with rfl | hrest
      · exact .inl List.mem_cons_self
      · rcases ih hrest with hold | ⟨hnew, hlabel⟩
        · exact .inl (List.mem_cons_of_mem _ hold)
        · exact .inr ⟨hnew, hlabel.imp_right (List.mem_cons_of_mem _)⟩

end

/-- The values under a name. -/
def valuesUnder (entries : List (Value × Value)) (name : String) : List Value :=
  (entries.filter fun entry => entry.1.asText? = some name).map Prod.snd

section

variable {entries before after : List (Value × Value)} {entry : Value × Value} {key value : Value}
  {name : String}

@[simp] theorem valuesUnder_nil : valuesUnder [] name = [] := rfl

theorem valuesUnder_cons :
    valuesUnder (entry :: entries) name =
      if entry.1.asText? = some name then entry.2 :: valuesUnder entries name
      else valuesUnder entries name := by
  by_cases h : entry.1.asText? = some name <;> simp [valuesUnder, h]

@[simp] theorem valuesUnder_append :
    valuesUnder (before ++ after) name = valuesUnder before name ++ valuesUnder after name := by
  simp [valuesUnder]

theorem length_valuesUnder :
    (valuesUnder entries name).length = (entries.map fun entry => entry.1.asText?).count (some name) := by
  rw [valuesUnder, List.length_map, List.count, List.countP_map, ← List.countP_eq_length_filter]
  simp only [Function.comp_def, beq_eq_decide]

theorem lookup_eq_head? (h : key.asText? = some name) :
    lookup entries key = (valuesUnder entries name).head? := by
  simp only [lookup, sameKey_of_asText? h, valuesUnder, List.head?_map, List.head?_filter]

theorem field?_eq_head? : field? entries name = (valuesUnder entries name).head? :=
  lookup_eq_head? rfl

/-- Storing changes nothing under other names. -/
theorem valuesUnder_putEntry_of_ne (h : key.asText? ≠ some name) :
    valuesUnder (putEntry entries key value) name = valuesUnder entries name := by
  induction entries with
  | nil => simp [putEntry, valuesUnder_cons, h]
  | cons entry rest ih =>
    rw [putEntry]
    split
    · rename_i hkey
      rw [← asText?_of_sameKey hkey] at h
      simp [valuesUnder_cons, h]
    · simp [valuesUnder_cons, ih]

/-- What is stored under a name takes the place of the first that was there. -/
theorem valuesUnder_putEntry_of_eq (h : key.asText? = some name) :
    valuesUnder (putEntry entries key value) name = value :: (valuesUnder entries name).tail := by
  induction entries with
  | nil => simp [putEntry, valuesUnder_cons, h]
  | cons entry rest ih =>
    rw [putEntry, sameKey_of_asText? h]
    by_cases hentry : entry.1.asText? = some name
    · simp [valuesUnder_cons, hentry]
    · simp [valuesUnder_cons, hentry, ih]

/-- Storing under a name is seen there and under no other name. -/
theorem lookup_putEntry (entries : List (Value × Value)) (h : key.asText? = some name)
    (value : Value) (other : String) :
    lookup (putEntry entries key value) (text other) =
      if name = other then some value else lookup entries (text other) := by
  have hhead {entries : List (Value × Value)} :
      lookup entries (text other) = (valuesUnder entries other).head? := lookup_eq_head? rfl
  by_cases hname : name = other
  · subst hname
    rw [hhead, valuesUnder_putEntry_of_eq h, if_pos rfl, List.head?_cons]
  · have hne : key.asText? ≠ some other := by simpa [h] using hname
    rw [hhead, hhead, valuesUnder_putEntry_of_ne hne, if_neg hname]

/-- Of what is stored one after the other under a name the last stays. -/
theorem valuesUnder_foldl_putEntry (entries : List (Value × Value)) {known : List (Value × Value)}
    (f : Value → Value) (hone : (valuesUnder known name).length ≤ 1) :
    valuesUnder (entries.foldl (fun parts entry => putEntry parts entry.1 (f entry.2)) known) name =
      ((valuesUnder entries name).getLast?.map fun value => [f value]).getD (valuesUnder known name) := by
  have htail {values : List Value} (h : values.length ≤ 1) : values.tail = [] := by
    rw [← List.length_eq_zero_iff, List.length_tail]
    omega
  induction entries using List.reverseRecOn with
  | nil => rfl
  | append_singleton entries entry ih =>
    rw [List.foldl_append, List.foldl_cons, List.foldl_nil, valuesUnder_append]
    by_cases hentry : entry.1.asText? = some name
    · rw [valuesUnder_putEntry_of_eq hentry, ih]
      cases (valuesUnder entries name).getLast? <;> simp [valuesUnder_cons, hentry, htail hone]
    · rw [valuesUnder_putEntry_of_ne hentry, ih]
      simp [valuesUnder_cons, hentry]

theorem mem_valuesUnder : value ∈ valuesUnder entries name ↔
    ∃ key, (key, value) ∈ entries ∧ key.asText? = some name := by
  simp [valuesUnder, and_comm]

/-- Where all names are texts, so they are after storing. -/
theorem asText?_isSome_of_mem_foldl (f : Value → Value)
    (hbefore : ∀ entry ∈ before, entry.1.asText?.isSome)
    (hentries : ∀ entry ∈ entries, entry.1.asText?.isSome) :
    ∀ entry ∈ entries.foldl (fun parts entry => putEntry parts entry.1 (f entry.2)) before,
      entry.1.asText?.isSome := by
  induction entries generalizing before with
  | nil => exact hbefore
  | cons first rest ih =>
    obtain ⟨hfirst, hrest⟩ := List.forall_mem_cons.mp hentries
    refine ih (fun entry hentry => ?_) hrest
    rcases mem_putEntry hentry with hold | ⟨-, hkey | hkey⟩
    · exact hbefore entry hold
    · rwa [hkey]
    · obtain ⟨old, hold, hkey⟩ := List.mem_map.mp hkey
      exact hkey ▸ hbefore old hold

end

end Value

namespace Json

/-- A mapping is written exactly if each of its keys and values is. -/
theorem exists_encode_mapping {entries : List (Value × Value)} :
    (∃ text, encode (.mapping entries) = .ok text) ↔
      ∀ entry ∈ entries, (∃ name, key entry.1 = .ok name) ∧ ∃ text, encode entry.2 = .ok text := by
  have hentries : (∃ texts, encodeEntries entries = .ok texts) ↔
      ∀ entry ∈ entries, (∃ name, key entry.1 = .ok name) ∧ ∃ text, encode entry.2 = .ok text := by
    induction entries with
    | nil => simp [encodeEntries]
    | cons entry rest ih =>
      rw [List.forall_mem_cons, ← ih]
      simp only [encodeEntries, bind_eq_ok, pure_eq_ok]
      constructor
      · rintro ⟨_, name, hname, text, htext, later, hlater, -⟩
        exact ⟨⟨⟨name, hname⟩, text, htext⟩, later, hlater⟩
      · rintro ⟨⟨⟨name, hname⟩, text, htext⟩, later, hlater⟩
        exact ⟨_, name, hname, text, htext, later, hlater, rfl⟩
  rw [← hentries]
  simp only [encode, bind_eq_ok, pure_eq_ok]
  constructor
  · rintro ⟨_, texts, htexts, -⟩
    exact ⟨texts, htexts⟩
  · rintro ⟨texts, htexts⟩
    exact ⟨_, texts, htexts, rfl⟩

theorem exists_key_of_asText? {value : Value} {text : String} (h : value.asText? = some text) :
    ∃ name, key value = .ok name := by
  cases value <;> simp_all [key, Value.asText?]

end Json

end AccessMatrix
