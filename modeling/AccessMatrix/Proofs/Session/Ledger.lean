import AccessMatrix.Policy.Compiler
import AccessMatrix.Proofs.Entries

/-!
# The ledger of a run

A run can be told without naming any round: a declaration is accepted, declarations are dropped or
built, a callback begins or ends, it calls a setter or keeps one, and a kept setter is called later
on. Who is told all this can keep a ledger. A round is begun at the start, by dropping the
declarations, and by a configuration, which makes its round the current one if it ends well; a
declaration belongs to the current round, and what a setter declares belongs to the round of the
callback that the setter was made for. A round that was left, because it was replaced or because its
configuration failed, is never the current one again.
-/

namespace AccessMatrix

namespace Session

open Policy (Declaration RoundId)

/-- What happens in a run, as far as it can bear on what is published. -/
inductive Event where
  | declare (d : Declaration)
  | clear
  | build
  | begin (configures : Bool)
  | set (d : Declaration)
  | keep (label : Value) (declares : Bool)
  | setKept (label : Value) (d : Declaration)
  | finish (ended : Bool)
  | other

/-- A callback at work: whether a configuration runs it, and the round that its setters declare
in. -/
structure Running where
  configures : Bool
  round : RoundId
  deriving DecidableEq

/-- What is known of a run from what happened: the declarations recorded in every round begun so
far, the current round, the callbacks at work with the innermost one first, and the round of every
kept setter that declares. -/
structure Ledger where
  rounds : List (List Declaration) := [[]]
  current : RoundId := 0
  running : List Running := []
  kept : List (Value × Option RoundId) := []

namespace Ledger

/-- What was recorded in a round. -/
def recorded (l : Ledger) (id : RoundId) : List Declaration := (l.rounds[id]?).getD []

/-- What was recorded in the current round. -/
def declared (l : Ledger) : List Declaration := l.recorded l.current

/-- The round of the innermost callback. -/
def innermost? (l : Ledger) : Option RoundId := l.running.head?.map Running.round

/-- The round of the setter that is kept under a label. -/
def keptRound? (l : Ledger) (label : Value) : Option RoundId := (Value.lookup l.kept label).join

/-- Record a declaration in a round. -/
def record (l : Ledger) (d : Declaration) : Option RoundId → Ledger
  | some id => { l with rounds := l.rounds.modify id (· ++ [d]) }
  | none => l

/-- Go on by one event. -/
def step (l : Ledger) : Event → Ledger
  | .declare d => l.record d (some l.current)
  | .clear => { l with rounds := l.rounds ++ [[]], current := l.rounds.length }
  | .begin true =>
    { l with rounds := l.rounds ++ [[]], running := ⟨true, l.rounds.length⟩ :: l.running }
  | .begin false => { l with running := ⟨false, l.current⟩ :: l.running }
  | .set d => l.record d l.innermost?
  | .keep label declares =>
    { l with kept := Value.putEntry l.kept label (if declares then l.innermost? else none) }
  | .setKept label d => l.record d (l.keptRound? label)
  | .finish ended =>
    match l.running with
    | [] => l
    | callback :: rest =>
      { l with
        current := if callback.configures && ended then callback.round else l.current
        running := rest }
  | .build | .other => l

/-- Whether an event publishes: a build does, and the end of a configuration that ends well. -/
def publishes (l : Ledger) : Event → Bool
  | .build => true
  | .finish ended => ended && l.running.head?.any Running.configures
  | _ => false

/-- The ledger knows what an event is about: the round of the setter that is called, or the callback
that ends. -/
def Knows (l : Ledger) : Event → Prop
  | .set _ => l.innermost?.isSome = true
  | .setKept label _ => (l.keptRound? label).isSome = true
  | .finish _ => l.running ≠ []
  | _ => True

/-- A round is left at an event: the current one when the declarations are dropped or a
configuration ends well, and the round of a configuration when it fails. -/
def LeavesAt (l : Ledger) (id : RoundId) : Event → Prop
  | .clear => id = l.current
  | .finish true => id = l.current ∧ l.running.head?.any Running.configures = true
  | .finish false => l.running.head? = some ⟨true, id⟩
  | _ => False

/-- A round was left: it was begun, it is not the current one, and no configuration that is at work
can make it so. -/
structure Left (l : Ledger) (id : RoundId) : Prop where
  begun : id < l.rounds.length
  not_current : l.current ≠ id
  not_running : ⟨true, id⟩ ∉ l.running

variable {l : Ledger} {id : RoundId}

theorem length_record (l : Ledger) (d : Declaration) (id? : Option RoundId) :
    (l.record d id?).rounds.length = l.rounds.length := by
  cases id? with
  | none => rfl
  | some id => simp [record]

theorem running_record (l : Ledger) (d : Declaration) (id? : Option RoundId) :
    (l.record d id?).running = l.running := by
  cases id? <;> rfl

/-- Recording in a round that was begun is seen in it and in no other. -/
theorem recorded_record (h : id < l.rounds.length) (d : Declaration) (other : RoundId) :
    (l.record d (some id)).recorded other =
      if id = other then l.recorded id ++ [d] else l.recorded other := by
  unfold recorded record
  rw [List.getElem?_modify]
  split
  · rename_i hother
    subst hother
    rw [List.getElem?_eq_getElem h]
    rfl
  · simp

/-- A round that is begun holds nothing, and neither does one that is not begun. -/
theorem recorded_begin (l : Ledger) (current : RoundId) (running : List Running) (id : RoundId) :
    recorded { l with rounds := l.rounds ++ [[]], current, running } id = l.recorded id := by
  unfold recorded
  rw [List.getElem?_append]
  split
  · rfl
  · rename_i h
    rw [List.getElem?_eq_none (Nat.le_of_not_lt h)]
    cases id - l.rounds.length <;> rfl

/-- The end of a callback leaves the ledger without it, and with its round as the current one if it
was a configuration that ended well. -/
theorem step_finish {callback : Running} {rest : List Running} (h : l.running = callback :: rest)
    (ended : Bool) :
    l.step (.finish ended) =
      { l with
        current := if callback.configures && ended then callback.round else l.current
        running := rest } := by
  simp only [step, h]

/-- A callback that ends is the innermost one, and nothing happens where none is at work. -/
theorem step_finish_cases (l : Ledger) (ended : Bool) :
    l.running = [] ∧ l.step (.finish ended) = l ∨
      ∃ callback rest, l.running = callback :: rest ∧
        l.step (.finish ended) =
          { l with
            current := if callback.configures && ended then callback.round else l.current
            running := rest } := by
  cases h : l.running with
  | nil =>
    left
    exact ⟨rfl, by simp only [step, h]⟩
  | cons callback rest =>
    right
    exact ⟨callback, rest, rfl, step_finish h ended⟩

/-- All rounds that a ledger names were begun. -/
structure Begun (l : Ledger) : Prop where
  current : l.current < l.rounds.length
  running : ∀ callback ∈ l.running, callback.round < l.rounds.length
  kept : ∀ entry ∈ l.kept, ∀ id, entry.2 = some id → id < l.rounds.length

namespace Begun

theorem innermost (h : l.Begun) (hid : l.innermost? = some id) : id < l.rounds.length := by
  obtain ⟨callback, hcallback, rfl⟩ := Option.map_eq_some_iff.mp hid
  exact h.running callback (List.mem_of_head? hcallback)

theorem keptRound (h : l.Begun) {label : Value} (hid : l.keptRound? label = some id) :
    id < l.rounds.length := by
  obtain ⟨entry, hentry, hround⟩ := Option.map_eq_some_iff.mp (Option.join_eq_some_iff.mp hid)
  exact h.kept entry (List.mem_of_find?_eq_some hentry) id hround

theorem record (h : l.Begun) (d : Declaration) (id? : Option RoundId) : (l.record d id?).Begun := by
  have hlength := length_record l d id?
  cases id? with
  | none => exact h
  | some id =>
    constructor
    · exact hlength ▸ h.current
    · exact hlength ▸ h.running
    · exact hlength ▸ h.kept

/-- Rounds that were begun stay so when another one is. -/
theorem extend (h : l.Begun) : ({ l with rounds := l.rounds ++ [[]] } : Ledger).Begun := by
  have hlater : l.rounds.length ≤ (l.rounds ++ [([] : List Declaration)]).length := by simp
  constructor
  · exact Nat.lt_of_lt_of_le h.current hlater
  · exact fun callback hcallback => Nat.lt_of_lt_of_le (h.running callback hcallback) hlater
  · exact fun entry hentry id hid => Nat.lt_of_lt_of_le (h.kept entry hentry id hid) hlater

/-- Every event keeps a ledger to rounds that were begun. -/
theorem step (h : l.Begun) (event : Event) : (l.step event).Begun := by
  cases event with
  | declare d => exact h.record d (some l.current)
  | set d => exact h.record d l.innermost?
  | setKept label d => exact h.record d (l.keptRound? label)
  | clear => exact ⟨by simp [Ledger.step], h.extend.running, h.extend.kept⟩
  | begin configures =>
    cases configures with
    | true =>
      refine ⟨h.extend.current, ?_, h.extend.kept⟩
      exact List.forall_mem_cons.mpr ⟨by simp [Ledger.step], h.extend.running⟩
    | false => exact ⟨h.current, List.forall_mem_cons.mpr ⟨h.current, h.running⟩, h.kept⟩
  | keep label declares =>
    refine ⟨h.current, h.running, ?_⟩
    intro entry hentry id hid
    rcases Value.mem_putEntry hentry with hold | ⟨hnew, -⟩
    · exact h.kept entry hold id hid
    · rw [hnew] at hid
      split at hid
      · exact h.innermost hid
      · contradiction
  | finish ended =>
    rcases l.step_finish_cases ended with ⟨-, hstep⟩ | ⟨callback, rest, hrunning, hstep⟩
    · rw [hstep]
      exact h
    · have hboth := h.running
      rw [hrunning] at hboth
      obtain ⟨hcallback, hrest⟩ := List.forall_mem_cons.mp hboth
      rw [hstep]
      refine ⟨?_, hrest, h.kept⟩
      dsimp only
      split
      · exact hcallback
      · exact h.current
  | build => exact h
  | other => exact h

end Begun

/-- The rounds of the configurations at work are different from one another and from the current
one. -/
def OwnRounds (l : Ledger) : Prop :=
  (l.current :: (l.running.filter Running.configures).map Running.round).Nodup

theorem OwnRounds.not_mem (h : l.OwnRounds) : ⟨true, l.current⟩ ∉ l.running := by
  intro hmem
  refine (List.nodup_cons.mp h).1 (List.mem_map.mpr ⟨_, List.mem_filter.mpr ⟨hmem, rfl⟩, rfl⟩)

theorem OwnRounds.record (h : l.OwnRounds) (d : Declaration) (id? : Option RoundId) :
    (l.record d id?).OwnRounds := by
  cases id? <;> exact h

/-- Every event keeps the rounds of configurations apart. -/
theorem OwnRounds.step (h : l.OwnRounds) (hbegun : l.Begun) (event : Event) :
    (l.step event).OwnRounds := by
  have hnew {rest : List Running} (hrest : ∀ callback ∈ rest, callback ∈ l.running) :
      l.rounds.length ∉ (rest.filter Running.configures).map Running.round := by
    intro hmem
    obtain ⟨callback, hcallback, hround⟩ := List.mem_map.mp hmem
    have hlt := hbegun.running callback (hrest callback (List.mem_filter.mp hcallback).1)
    exact Nat.ne_of_lt hlt hround
  obtain ⟨hcurrent, hnodup⟩ := List.nodup_cons.mp h
  cases event with
  | declare d => exact h.record d (some l.current)
  | set d => exact h.record d l.innermost?
  | setKept label d => exact h.record d (l.keptRound? label)
  | clear => exact List.nodup_cons.mpr ⟨hnew fun _ => id, hnodup⟩
  | begin configures =>
    cases configures with
    | true =>
      refine List.nodup_cons.mpr ⟨?_, List.nodup_cons.mpr ⟨hnew fun _ => id, hnodup⟩⟩
      exact List.not_mem_cons_of_ne_of_not_mem (Nat.ne_of_lt hbegun.current) hcurrent
    | false => exact h
  | keep label declares => exact h
  | finish ended =>
    rcases l.step_finish_cases ended with ⟨-, hstep⟩ | ⟨callback, rest, hrunning, hstep⟩
    · rw [hstep]
      exact h
    · rw [hstep]
      unfold OwnRounds at h ⊢
      rw [hrunning] at h
      obtain ⟨configures, round⟩ := callback
      cases configures with
      | false => exact h
      | true =>
        obtain ⟨hcurrent, hnodup⟩ := List.nodup_cons.mp h
        cases ended with
        | true => exact hnodup
        | false =>
          exact List.nodup_cons.mpr
            ⟨List.not_mem_of_not_mem_cons hcurrent, (List.nodup_cons.mp hnodup).2⟩
  | build => exact h
  | other => exact h

theorem Left.record (h : l.Left id) (d : Declaration) (id? : Option RoundId) :
    (l.record d id?).Left id := by
  have hlength := length_record l d id?
  cases id? with
  | none => exact h
  | some other => exact ⟨hlength ▸ h.begun, h.not_current, h.not_running⟩

/-- A round that was left is so after every event. -/
theorem Left.step (h : l.Left id) (event : Event) : (l.step event).Left id := by
  have hlater : id < (l.rounds ++ [([] : List Declaration)]).length := by
    rw [List.length_append]
    exact Nat.lt_add_right _ h.begun
  cases event with
  | declare d => exact h.record d (some l.current)
  | set d => exact h.record d l.innermost?
  | setKept label d => exact h.record d (l.keptRound? label)
  | clear => exact ⟨hlater, (Nat.ne_of_lt h.begun).symm, h.not_running⟩
  | begin configures =>
    cases configures with
    | true =>
      refine ⟨hlater, h.not_current, List.not_mem_cons_of_ne_of_not_mem ?_ h.not_running⟩
      intro heq
      exact Nat.ne_of_lt h.begun (congrArg Running.round heq)
    | false =>
      exact ⟨h.begun, h.not_current, List.not_mem_cons_of_ne_of_not_mem (by simp) h.not_running⟩
  | keep label declares => exact ⟨h.begun, h.not_current, h.not_running⟩
  | finish ended =>
    rcases l.step_finish_cases ended with ⟨-, hstep⟩ | ⟨callback, rest, hrunning, hstep⟩
    · rw [hstep]
      exact h
    · have hnot := h.not_running
      rw [hrunning] at hnot
      obtain ⟨hcallback, hrest⟩ := List.ne_and_not_mem_of_not_mem_cons hnot
      rw [hstep]
      -- only a configuration makes its round current, and this one's is not the round that was left
      refine ⟨h.begun, ?_, hrest⟩
      dsimp only
      split
      · rename_i hadopts
        intro hround
        apply hcallback
        rw [← hround, ← (Bool.and_eq_true_iff.mp hadopts).1]
      · exact h.not_current
  | build => exact h
  | other => exact h

/-- The round of the innermost configuration is neither the current one nor that of another. -/
theorem OwnRounds.innermost (h : l.OwnRounds) {rest : List Running}
    (hrunning : l.running = ⟨true, id⟩ :: rest) : l.current ≠ id ∧ ⟨true, id⟩ ∉ rest := by
  unfold OwnRounds at h
  rw [hrunning] at h
  obtain ⟨hcurrent, hnodup⟩ := List.nodup_cons.mp h
  refine ⟨(List.ne_and_not_mem_of_not_mem_cons hcurrent).1, fun hmem => ?_⟩
  apply (List.nodup_cons.mp hnodup).1
  exact List.mem_map.mpr ⟨_, List.mem_filter.mpr ⟨hmem, rfl⟩, rfl⟩

/-- What is left at an event was left after it. -/
theorem LeavesAt.left {event : Event} (hleaves : l.LeavesAt id event) (h : l.OwnRounds)
    (hbegun : l.Begun) : (l.step event).Left id := by
  cases event with
  | clear =>
    obtain rfl : id = l.current := hleaves
    exact ⟨hbegun.extend.current, (Nat.ne_of_lt hbegun.current).symm, h.not_mem⟩
  | finish ended =>
    cases hrunning : l.running with
    | nil => cases ended <;> simp [LeavesAt, hrunning] at hleaves
    | cons callback rest =>
      obtain ⟨configures, round⟩ := callback
      rw [step_finish hrunning]
      cases ended with
      | true =>
        obtain ⟨rfl, hconfigures⟩ := hleaves
        obtain rfl : configures = true := by simpa [hrunning] using hconfigures
        obtain ⟨hcurrent, -⟩ := h.innermost hrunning
        have hnot := h.not_mem
        rw [hrunning] at hnot
        exact ⟨hbegun.current, hcurrent.symm, List.not_mem_of_not_mem_cons hnot⟩
      | false =>
        obtain ⟨rfl, rfl⟩ : configures = true ∧ round = id := by
          simpa [LeavesAt, hrunning] using hleaves
        obtain ⟨hcurrent, hrest⟩ := h.innermost hrunning
        refine ⟨hbegun.running ⟨true, round⟩ ?_, hcurrent, hrest⟩
        rw [hrunning]
        exact List.mem_cons_self
  | _ => contradiction

end Ledger

end Session

end AccessMatrix
