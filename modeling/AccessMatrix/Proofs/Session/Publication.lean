import AccessMatrix.Proofs.Session.Telling

/-!
# What is published in a run

Only builds and configurations that end well publish, and what they publish is the compilation of
what was recorded in the current round so far, in its order. A round that was replaced, or whose
configuration failed, is never current again. So the setters that were kept from it show in no later
snapshot, and what comes later runs as if they had not been called.
-/

namespace AccessMatrix.Session

open Outcome
open Policy (Compiler Round RoundId)

/-- No configuration is at work in the ledger of a new session. -/
theorem Ledger.ownRounds_empty : Ledger.OwnRounds {} := List.nodup_singleton _

/-- A ledger that is kept along a story keeps the rounds of configurations apart. -/
theorem Ledger.OwnRounds.after {l : Ledger} (h : l.OwnRounds) (hbegun : l.Begun)
    (story : List Moment) : (l.after story).OwnRounds ∧ (l.after story).Begun := by
  induction story generalizing l with
  | nil => exact ⟨h, hbegun⟩
  | cons m rest ih => exact ih (h.step hbegun m.event) (hbegun.step m.event)

/-- A round that was left is so for the rest of a story. -/
theorem Ledger.Left.after {l : Ledger} {id : RoundId} (h : l.Left id) (story : List Moment) :
    (l.after story).Left id := by
  induction story generalizing l with
  | nil => exact h
  | cons m rest ih => exact ih (h.step m.event)

/-- A new session agrees with an empty ledger. -/
theorem agrees_new {s : Session} (hworld : s.world = {}) (hkept : s.kept = []) :
    Ledger.Agrees {} s where
  begun := ⟨Nat.zero_lt_one, by simp, by simp⟩
  tells := by
    have hcompiler : s.engine.compiler = {} := congrArg World.compiler hworld
    rw [hcompiler]
    refine ⟨rfl, rfl, fun id => ?_⟩
    cases id <;> rfl
  kept := by
    rw [hkept]
    rfl

/-- A call of a kept setter that declares changes nothing but what the round of the setter holds. -/
theorem callKept_cases {s : Session} {label : Value} {id : RoundId}
    (hround : (Value.lookup s.kept label).bind roundOf? = some id) (given : Given) :
    (Step.run (.callKept label given) s).2 = s ∨
      ∃ d records, (Step.run (.callKept label given) s).2 =
        (s.withCompiler (s.engine.compiler.record id d).1).log records := by
  have hrun : (Step.run (.callKept label given) s).2 =
      (s.whole ((s.callKept label given).map fun next => (.done, next))).2 := rfl
  rw [hrun]
  cases hcalled : s.callKept label given with
  | error e => exact .inl rfl
  | ok next =>
    right
    obtain ⟨setter, hsetter, hnext⟩ := bind_eq_ok.mp hcalled
    obtain ⟨⟨value?, named⟩, -, hnext⟩ := bind_eq_ok.mp hnext
    rw [lookup_of_aside hsetter, Option.bind_some] at hround
    cases setter with
    | policy round context role subject =>
      obtain rfl : round = id := Option.some.inj hround
      obtain ⟨outcome, houtcome, rfl⟩ := map_eq_ok.mp hnext
      obtain ⟨d, -, rfl⟩ := map_eq_ok.mp houtcome
      exact ⟨d, _, rfl⟩
    | member id made m => contradiction
    | value kind title => contradiction

/-- Sessions that are alike do the same, command by command. -/
theorem Alike.opsOf {s t : Session} (h : Alike s t) (commands : List Command) :
    t.opsOf commands = s.opsOf commands := by
  induction commands generalizing s t with
  | nil => rfl
  | cons command rest ih =>
    obtain ⟨hops, hnext⟩ := command.alike h
    rw [Session.opsOf, Session.opsOf, hops, ih hnext.session]

/-- A session with a declaration more in some round is alike. -/
theorem alike_record (s : Session) (id : RoundId) (d : Policy.Declaration)
    (records : List Log.Record) :
    Alike s ((s.withCompiler (s.engine.compiler.record id d).1).log records) where
  graph := rfl
  memberships := rfl
  subjects := rfl
  current := rfl
  count := by simp [Compiler.record, Session.withCompiler, Session.log]
  visits := rfl
  views := rfl
  kept := rfl
  labels := rfl
  elsewhere := rfl

/-- What is declared in a round apart shows in nothing that is published later. -/
theorem published_of_apart {w : World} {id : RoundId} (h : World.Apart id w)
    (d : Policy.Declaration) {ops : List Operation} (hops : .adopt id ∉ ops) :
    ((w.apply (.call id d)).replay ops).compiler.published = (w.replay ops).compiler.published := by
  have hcalled : World.Apart id (w.apply (.call id d)) := h.apply (by simp)
  have hagree := h.agreeOutside_replay (.refl id w) hops
  have hagree' := hcalled.agreeOutside_replay (World.agreeOutside_call id w d) hops
  exact hagree'.published.symm.trans hagree.published

/-- A call of a setter whose round is apart shows in nothing that is published later. -/
theorem published_after_callKept {s : Session} {label : Value} {id : RoundId}
    (hround : (Value.lookup s.kept label).bind roundOf? = some id) (h : World.Apart id s.world)
    (given : Given) (later : List Command) :
    (s.after (.step (.callKept label given) :: later)).world.compiler.published =
      (s.after later).world.compiler.published := by
  change ((Step.run (.callKept label given) s).2.after later).world.compiler.published = _
  rcases callKept_cases hround given with hsame | ⟨d, records, hcalled⟩
  · rw [hsame]
  · rw [hcalled, (runs_opsOf _ later).eq_replay, (runs_opsOf s later).eq_replay,
      (alike_record s id d records).opsOf]
    apply published_of_apart h
    intro hadopt
    exact Nat.not_le_of_lt h.begun ((runs_opsOf s later).adopted hadopt)

/-- A round that was left in the ledger is apart from the world that the ledger tells of. -/
theorem Ledger.Left.apart {l : Ledger} {id : RoundId} (h : l.Left id) {s : Session}
    (hagrees : l.Agrees s) : World.Apart id s.world where
  begun := Nat.lt_of_lt_of_eq h.begun hagrees.tells.count.symm
  not_current := fun hcurrent => h.not_current (hagrees.tells.current.symm.trans hcurrent)

/-- Publication over whole runs. Let a session be new, and keep a ledger of all that happens by some
commands. Then the ledger explains every moment: it tells what the next build compiles, and the
published snapshot changes only at a build or when a configuration ends well, and is then the
compilation of what the ledger has recorded in the current round, on the graph of the moment. A call
of a kept setter is recorded in the round of the callback that kept it, and publishes nothing. A
round that is left, because the declarations are dropped or another round is adopted or its
configuration fails, is left for good. And a call of a setter from a round that was left shows in
nothing that is published later: what comes after it publishes the same without it. -/
theorem publication_follows_ledger {s : Session} (hworld : s.world = {}) (hkept : s.kept = [])
    (commands : List Command) :
    let story := s.storyOf commands
    let ledger := Ledger.after {}
    s.world.afterStory story = (s.after commands).world ∧
    (∀ before m later, story = before ++ m :: later →
      let l := ledger before
      let w := s.world.afterStory before
      l.Explains w m ∧
      (∀ label d, m.event = .setKept label d → ∃ id, l.keptRound? label = some id ∧
        (l.step m.event).recorded id = l.recorded id ++ [d] ∧
        m.world.compiler.published = w.compiler.published) ∧
      (∀ id, l.LeavesAt id m.event → ∀ middle rest, later = middle ++ rest →
        (ledger (before ++ m :: middle)).Left id)) ∧
    (∀ label id, (ledger story).keptRound? label = some id → (ledger story).Left id →
      ∀ given later,
        (s.after (commands ++ .step (.callKept label given) :: later)).world.compiler.published =
          (s.after (commands ++ later)).world.compiler.published) := by
  intro story ledger
  have haccounts := accounts_storyOf (agrees_new hworld hkept) commands
  refine ⟨haccounts.world, fun before m later hsplit => ?_,
    fun label id hround hleft given later => ?_⟩
  · intro l w
    have hexplains : l.Explains w m := by
      have hall : Ledger.ExplainsAll {} s.world story := haccounts.explains
      rw [hsplit, Ledger.explainsAll_append] at hall
      exact hall.2.1
    obtain ⟨hown, hbegun⟩ :=
      Ledger.ownRounds_empty.after (agrees_new hworld hkept).begun before
    refine ⟨hexplains, fun label d hevent => ?_, fun id hleaves middle rest _ => ?_⟩
    · have hknows := hexplains.knows
      have hpublished := hexplains.published
      rw [hevent] at hknows hpublished
      obtain ⟨id, hid⟩ := Option.isSome_iff_exists.mp hknows
      refine ⟨id, hid, ?_, hpublished⟩
      rw [hevent, Ledger.step, hid, Ledger.recorded_record (hbegun.keptRound hid), if_pos rfl]
    · have hleft := hleaves.left hown hbegun
      change (Ledger.after {} (before ++ m :: middle)).Left id
      rw [Ledger.after_append]
      exact hleft.after middle
  · have hagrees := haccounts.agrees
    have hsetter : (Value.lookup (s.after commands).kept label).bind roundOf? = some id := by
      rw [← hagrees.keptRound?]
      exact hround
    have hafter (others : List Command) :
        s.after (commands ++ others) = (s.after commands).after others := List.foldl_append
    rw [hafter, hafter]
    exact published_after_callKept hsetter (hleft.apart hagrees) given later

/-- A rule that keeps the setter of the admin. -/
def keepRule : Rule :=
  .mk none (.set (.text "org") (.text "admin") .item (some (.text "setter"))
    (.ok (none, .mapping [])))

/-- A call of the kept setter that lets the admin write. -/
def lateCall : Step :=
  .callKept (.text "setter") (.ok (some (.mapping [(.text "write", .bool true)]), .mapping []))

/-- A setter that is kept from a configuration which fails can be called, and the admin does not
write after the next build; one that is kept from a visit of the subjects lets the admin write from
then on. -/
theorem publication_follows_ledger_late :
    let failed := officeCommands ++ [.configure [keepRule, failRule]]
    let visited := officeCommands ++ [.forEachSubject [keepRule]]
    let published (commands : List Command) :=
      (({} : Session).after commands).engine.compiler.published
    (lateCall.run (({} : Session).after failed)).1.isOk = true ∧
      published (failed ++ [.step lateCall, .step .build]) = published (failed ++ [.step .build]) ∧
      .plain "write" ∉ (published (visited ++ [.step lateCall])).actions ∧
      .plain "write" ∈ (published (visited ++ [.step lateCall, .step .build])).actions := by
  intro failed visited published
  obtain ⟨-, -, hlate⟩ := publication_follows_ledger (s := {}) rfl rfl failed
  have hround : (Ledger.after {} (({} : Session).storyOf failed)).keptRound? (.text "setter") =
      some 1 := by
    decide +kernel
  have hleft : (Ledger.after {} (({} : Session).storyOf failed)).Left 1 :=
    ⟨by decide +kernel, by decide +kernel, by decide +kernel⟩
  exact ⟨by decide +kernel, hlate (.text "setter") 1 hround hleft _ [.step .build],
    by decide +kernel, by decide +kernel⟩

end AccessMatrix.Session
