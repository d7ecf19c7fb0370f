import AccessMatrix.Log.Output
import AccessMatrix.Proofs.Entries

/-!
# What lines tell of records

What an event tells of itself is its core: time, level, logger, message and exception. Attaching leaves
the core of a record as it is, but a line shows what is attached under a name of the core in its place.
So a line tells of a record what the record tells of itself exactly if nothing is attached under these
names, or only what would stand there anyway.
-/

namespace AccessMatrix.Log

open Outcome
open Value (valuesUnder valuesUnder_append valuesUnder_cons field?_eq_head? lookup_eq_head?
  valuesUnder_foldl_putEntry)

/-- What an event tells of itself: its time, the level and the logger as they are called, its message,
and the text of an exception. -/
@[ext]
structure Core where
  time : String
  level : Value
  logger : Value
  message : String
  exception? : Option String

namespace Core

/-- The parts that every line has. -/
def own (core : Core) : List (Value × Value) :=
  [(.text "timestamp", .text core.time), (.text "level", core.level), (.text "logger", core.logger),
    (.text "message", .text core.message)]

/-- The parts of a line that tell of an event itself. -/
def entries (core : Core) : List (Value × Value) :=
  core.own ++ core.exception?.toList.map fun text => (.text "exception", .text text)

/-- The names of these parts. -/
def names : List String := ["timestamp", "level", "logger", "message", "exception"]

/-- Those of the names that are not kept for an event itself, so that something can be attached under
them. -/
def openNames : List String := names.filter fun name => !Event.reserved.contains name

/-- The values under the names of the line. -/
theorem valuesUnder_entries (core : Core) :
    valuesUnder core.entries "timestamp" = [.text core.time] ∧
      valuesUnder core.entries "level" = [core.level] ∧
      valuesUnder core.entries "logger" = [core.logger] ∧
      valuesUnder core.entries "message" = [.text core.message] ∧
      valuesUnder core.entries "exception" = (core.exception?.map Value.text).toList := by
  cases h : core.exception? <;> simp [entries, own, h, valuesUnder_cons, Value.asText?]

theorem mem_entries {core : Core} {key value : Value} (h : (key, value) ∈ core.entries) :
    (∃ text, value = .text text) ∨ value = core.level ∨ value = core.logger := by
  simp only [entries, own, List.mem_append, List.mem_cons, List.mem_map, Prod.mk.injEq,
    List.not_mem_nil, or_false] at h
  rcases h with (⟨-, rfl⟩ | ⟨-, rfl⟩ | ⟨-, rfl⟩ | ⟨-, rfl⟩) | ⟨text, -, -, rfl⟩
  · exact .inl ⟨_, rfl⟩
  · exact .inr (.inl rfl)
  · exact .inr (.inr rfl)
  · exact .inl ⟨_, rfl⟩
  · exact .inl ⟨_, rfl⟩

end Core

namespace Event

/-- What an event tells of itself. -/
def core (e : Event) : Except Misuse Core := do
  let time ← e.time
  let level ← e.part "levelname"
  let logger ← e.part "name"
  let message ← e.text
  return { time, level, logger, message, exception? := ← e.exceptionText? }

theorem core_eq_ok {e : Event} {core : Core} :
    e.core = .ok core ↔ e.time = .ok core.time ∧ e.part "levelname" = .ok core.level ∧
      e.part "name" = .ok core.logger ∧ e.text = .ok core.message ∧
      e.exceptionText? = .ok core.exception? := by
  simp only [Event.core, bind_eq_ok, pure_eq_ok]
  constructor
  · rintro ⟨time, htime, level, hlevel, logger, hlogger, message, hmessage, exception?, hexception, rfl⟩
    exact ⟨htime, hlevel, hlogger, hmessage, hexception⟩
  · rintro ⟨htime, hlevel, hlogger, hmessage, hexception⟩
    exact ⟨_, htime, _, hlevel, _, hlogger, _, hmessage, _, hexception, rfl⟩

/-- The line of an event is made of what it tells of itself. -/
theorem line_eq (e : Event) (json : Bool) :
    e.line json = (do
      let core ← e.core
      let parts := e.parts core.own core.exception?
      if json then Json.encode (.mapping parts)
      else e.plainLine parts) := by
  simp only [line, core, bind_assoc, pure_bind, Core.own]

/-- The preview of what is attached under a name. -/
def previewUnder (e : Event) (name : String) : Option String :=
  (Value.field? e.fields name).map (preview defaultLimit)

end Event

/-- What an event tells of itself, but for what is attached to another event under the names of the
line. -/
def Core.under (core : Core) (e : Event) : Core where
  time := (e.previewUnder "timestamp").getD core.time
  level := ((e.previewUnder "level").map Value.text).getD core.level
  logger := ((e.previewUnder "logger").map Value.text).getD core.logger
  message := core.message
  exception? := (e.previewUnder "exception").or core.exception?

namespace Event

/-- Under a name that is its own an event has nothing that would be shown; under any other it has all. -/
theorem valuesUnder_unreserved (fields : List (Value × Value)) (name : String) :
    valuesUnder (fields.filter fun entry => !isReserved entry.1) name =
      if reserved.contains name then [] else valuesUnder fields name := by
  induction fields with
  | nil => simp
  | cons entry rest ih =>
    by_cases hname : entry.1.asText? = some name
    · by_cases hreserved : reserved.contains name <;> simp_all [isReserved, valuesUnder_cons]
    · by_cases hentry : isReserved entry.1 <;> simp_all [valuesUnder_cons]

theorem valuesUnder_named_of_ne {other name : String} (h : other ≠ name) (value? : Option Value) :
    valuesUnder (value?.toList.map fun value => (.text other, value)) name = [] := by
  cases value? <;> simp [valuesUnder_cons, Value.asText?, h]

/-- The parts of a line besides previews: what an event tells of itself, its engine and its subject. -/
def known (e : Event) (core : Core) : List (Value × Value) :=
  core.own ++ (e.given "engine").toList.map (fun value => (.text "engine", value)) ++
    (e.given "subject").toList.map (fun value => (.text "subject", value)) ++
    (core.exception?.map Value.text).toList.map fun value => (.text "exception", value)

theorem parts_eq (e : Event) (core : Core) :
    e.parts core.own core.exception? =
      (e.fields.filter fun entry => !isReserved entry.1).foldl
        (fun parts entry =>
          Value.putEntry parts entry.1 (.text (preview defaultLimit entry.2))) (e.known core) :=
  rfl

theorem valuesUnder_known (e : Event) (core : Core) {name : String} (hname : name ∈ Core.names) :
    valuesUnder (e.known core) name = valuesUnder core.entries name := by
  have hother : "engine" ≠ name ∧ "subject" ≠ name := by
    constructor <;> rintro rfl <;> simp [Core.names] at hname
  simp only [known, valuesUnder_append, valuesUnder_named_of_ne hother.1,
    valuesUnder_named_of_ne hother.2, Core.entries, List.append_nil]
  cases core.exception? <;> rfl

/-- What is known of an event under another name is its engine or its subject. -/
theorem mem_known_of_notMem_names {e : Event} {core : Core} {key value : Value} {name : String}
    (h : (key, value) ∈ e.known core) (hkey : key.asText? = some name) (hname : name ∉ Core.names) :
    e.given "engine" = some value ∨ e.given "subject" = some value := by
  simp only [Core.names, List.mem_cons, List.not_mem_nil, or_false, not_or] at hname
  simp only [known, Core.own, List.mem_append, List.mem_cons, List.mem_map, Prod.mk.injEq,
    List.not_mem_nil, or_false, Option.mem_toList] at h
  rcases h with (((⟨rfl, -⟩ | ⟨rfl, -⟩ | ⟨rfl, -⟩ | ⟨rfl, -⟩) | ⟨_, hengine, -, rfl⟩) |
    ⟨_, hsubject, -, rfl⟩) | ⟨_, -, rfl, -⟩
  case inl.inl.inr => exact .inl hengine
  case inl.inr => exact .inr hsubject
  all_goals simp_all [Value.asText?]

theorem length_valuesUnder_known (e : Event) (core : Core) (name : String) :
    (valuesUnder (e.known core) name).length ≤ 1 := by
  have hnodup : ((e.known core).map fun entry => entry.1.asText?).Nodup := by
    cases hengine : e.given "engine" <;> cases hsubject : e.given "subject" <;>
      cases hexception : core.exception? <;>
      simp [known, Core.own, hengine, hsubject, hexception, Value.asText?]
  rw [Value.length_valuesUnder]
  exact List.nodup_iff_count_le_one.mp hnodup _

/-- A line shows what is known of an event, but for what is attached to it. -/
theorem valuesUnder_parts (e : Event) (core : Core) (name : String) :
    valuesUnder (e.parts core.own core.exception?) name =
      ((if reserved.contains name then [] else valuesUnder e.fields name).getLast?.map fun value =>
        [.text (preview defaultLimit value)]).getD (valuesUnder (e.known core) name) := by
  have hfold := valuesUnder_foldl_putEntry (e.fields.filter fun entry => !isReserved entry.1)
    (fun value => .text (preview defaultLimit value)) (e.length_valuesUnder_known core name)
  rw [parts_eq, hfold, valuesUnder_unreserved]

/-- Under every name at most one thing is attached to an event. -/
def Single (e : Event) : Prop := ∀ name, name ∉ unattachable → (valuesUnder e.fields name).length ≤ 1

/-- What is attached under a name is what is found there. -/
theorem Single.getLast?_valuesUnder {e : Event} (h : e.Single) {name : String}
    (hname : name ∉ unattachable) :
    (valuesUnder e.fields name).getLast?.map (preview defaultLimit) = e.previewUnder name := by
  rw [previewUnder, field?_eq_head?]
  match valuesUnder e.fields name, h name hname with
  | [], _ | [_], _ => rfl

/-- A line shows just what an event tells of itself, but for what is attached to it. -/
theorem valuesUnder_parts_eq_under {e : Event} (h : e.Single) (core : Core) {name : String}
    (hname : name ∈ Core.names) :
    valuesUnder (e.parts core.own core.exception?) name = valuesUnder (core.under e).entries name := by
  have hattached {name : String} (hname : name ∈ Core.names) (hfree : name ∉ unattachable)
      (hshown : reserved.contains name = false) :
      valuesUnder (e.parts core.own core.exception?) name =
        ((e.previewUnder name).map fun text => [.text text]).getD (valuesUnder core.entries name) := by
    rw [valuesUnder_parts, valuesUnder_known e core hname, hshown, ← h.getLast?_valuesUnder hfree,
      Option.map_map]
    rfl
  have hcases : name = "timestamp" ∨ name = "level" ∨ name = "logger" ∨ name = "message" ∨
      name = "exception" := by
    simpa [Core.names] using hname
  obtain ⟨htime, hlevel, hlogger, hmessage, hexception⟩ := core.valuesUnder_entries
  obtain ⟨htime', hlevel', hlogger', hmessage', hexception'⟩ := (core.under e).valuesUnder_entries
  rcases hcases with rfl | rfl | rfl | rfl | rfl
  · rw [hattached hname (by decide) (by decide), htime, htime', Core.under]
    cases e.previewUnder "timestamp" <;> rfl
  · rw [hattached hname (by decide) (by decide), hlevel, hlevel', Core.under]
    cases e.previewUnder "level" <;> rfl
  · rw [hattached hname (by decide) (by decide), hlogger, hlogger', Core.under]
    cases e.previewUnder "logger" <;> rfl
  · rw [valuesUnder_parts, valuesUnder_known e core hname, hmessage, hmessage', Core.under]
    rfl
  · rw [hattached hname (by decide) (by decide), hexception, hexception', Core.under]
    cases e.previewUnder "exception" <;> rfl

/-- An event that nothing was attached to. -/
def IsBare (e : Event) : Prop := ∀ entry ∈ e.fields, ∃ name ∈ unattachable, entry.1 = .text name

theorem IsBare.valuesUnder_eq_nil {e : Event} (h : e.IsBare) {name : String}
    (hname : name ∉ unattachable) : valuesUnder e.fields name = [] := by
  rw [valuesUnder, List.map_eq_nil_iff, List.filter_eq_nil_iff]
  intro entry hentry
  obtain ⟨own, hown, hkey⟩ := h entry hentry
  have hne : own ≠ name := fun heq => hname (heq ▸ hown)
  simp [hkey, Value.asText?, hne]

/-- An event that differs from a record in what is attached to it. -/
structure Extends (e record : Event) : Prop where
  raised? : e.raised? = record.raised?
  statedTime? : e.statedTime? = record.statedTime?
  own : ∀ name ∈ unattachable, valuesUnder e.fields name = valuesUnder record.fields name
  single : e.Single

theorem IsBare.extends {record : Event} (h : record.IsBare) : record.Extends record where
  raised? := rfl
  statedTime? := rfl
  own _ _ := rfl
  single _ hname := by simp [h.valuesUnder_eq_nil hname]

/-- Something more is attached under a key that is not taken. -/
theorem Extends.concat {e record : Event} (h : e.Extends record) {key : Value}
    (hkey : isTaken e key = false) (value : Value) :
    { e with fields := e.fields ++ [(key, value)] }.Extends record := by
  obtain ⟨hfree, hnew⟩ : (key.asText?.map unattachable.contains).getD false = false ∧
      (Value.lookup e.fields key).isSome = false := by
    simpa [isTaken] using hkey
  refine ⟨h.raised?, h.statedTime?, fun name hname => ?_, fun name hname => ?_⟩
  · have hne : key.asText? ≠ some name := by
      rintro hkey
      simp [hkey, hname] at hfree
    rw [valuesUnder_append, h.own name hname]
    simp [valuesUnder_cons, hne]
  · rw [valuesUnder_append]
    by_cases hsame : key.asText? = some name
    · have hnone : valuesUnder e.fields name = [] := by
        rw [← List.head?_eq_none_iff, ← lookup_eq_head? hsame]
        simpa using hnew
      simp [hnone, valuesUnder_cons, hsame]
    · simpa [valuesUnder_cons, hsame] using h.single name hname

theorem Extends.attachUnder {record : Event} {given : Value} {keys : List Value} {e attached : Event}
    (h : e.Extends record) (hattach : attachUnder given e keys = .ok attached) :
    attached.Extends record := by
  induction keys generalizing e with
  | nil =>
    obtain rfl := Except.ok.inj hattach
    exact h
  | cons key rest ih =>
    rw [Log.attachUnder] at hattach
    obtain ⟨-, -, hattach⟩ := bind_eq_ok.mp hattach
    by_cases htaken : isTaken e key
    · simp [htaken, bind_eq_ok] at hattach
    · rw [if_neg htaken] at hattach
      obtain ⟨value, -, hattach⟩ := bind_eq_ok.mp hattach
      exact ih (h.concat (Bool.eq_false_iff.mpr htaken) value) hattach

/-- Attaching, as far as it is accepted, adds to a record and changes nothing of its own. -/
theorem IsBare.attachAll {record : Event} (hrecord : record.IsBare) {given : Value} {e : Event}
    (h : attachAll record given = .ok e) : e.Extends record := by
  unfold Log.attachAll at h
  split at h
  · obtain rfl := Except.ok.inj h
    exact hrecord.extends
  · obtain ⟨keys, -, hattach⟩ := bind_eq_ok.mp h
    exact hrecord.extends.attachUnder hattach

theorem Extends.part {e record : Event} (h : e.Extends record) {name : String}
    (hname : name ∈ unattachable) : e.part name = record.part name := by
  rw [Event.part, Event.part, field?_eq_head?, field?_eq_head?, h.own name hname]

theorem Extends.time {e record : Event} (h : e.Extends record) : e.time = record.time := by
  rw [Event.time, Event.time, h.statedTime?, h.part (show "created" ∈ unattachable by decide),
    h.part (show "msecs" ∈ unattachable by decide)]

theorem Extends.exceptionText? {e record : Event} (h : e.Extends record) :
    e.exceptionText? = record.exceptionText? := by
  rw [Event.exceptionText?, Event.exceptionText?, h.raised?,
    h.part (show "exc_info" ∈ unattachable by decide)]

theorem Extends.text {e record : Event} (h : e.Extends record)
    (hsame : Value.field? e.fields "getMessage" = Value.field? record.fields "getMessage") :
    e.text = record.text := by
  rw [Event.text, Event.text, hsame, h.part (show "msg" ∈ unattachable by decide),
    h.part (show "args" ∈ unattachable by decide)]

/-- What is attached to a record changes nothing of what the record tells of itself, unless it takes the
place of the way to make the message. -/
theorem Extends.core_eq {e record : Event} (h : e.Extends record) (hrecord : record.IsBare)
    (hmessage : Value.field? e.fields "getMessage" = none) : e.core = record.core := by
  have hbare : Value.field? record.fields "getMessage" = none := by
    rw [field?_eq_head?, hrecord.valuesUnder_eq_nil (by decide), List.head?_nil]
  rw [Event.core, Event.core, h.time, h.part (show "levelname" ∈ unattachable by decide),
    h.part (show "name" ∈ unattachable by decide), h.text (hmessage.trans hbare.symm), h.exceptionText?]

/-- There is no line of a record if something is attached in place of the way to make the message. -/
theorem Extends.line_eq_error {e record : Event} (h : e.Extends record) {core : Core}
    (hcore : record.core = .ok core) {value : Value}
    (hvalue : Value.field? e.fields "getMessage" = some value) (json : Bool) :
    e.line json = .error (.call (.notCallable value.typeName)) := by
  obtain ⟨htime, hlevel, hlogger, -, -⟩ := core_eq_ok.mp hcore
  have htext : e.text = .error (.call (.notCallable value.typeName)) := by
    rw [Event.text, hvalue]
  rw [line, h.time, htime, h.part (show "levelname" ∈ unattachable by decide), hlevel,
    h.part (show "name" ∈ unattachable by decide), hlogger, htext]
  rfl

/-- The values that a line shows as they are. -/
def wholeValues (e : Event) (core : Core) : List Value :=
  [core.level, core.logger] ++ (e.given "engine").toList ++ (e.given "subject").toList

/-- Where all names are texts, the keys of a line are. -/
theorem asText?_isSome_of_mem_parts {e : Event} {core : Core}
    (hnames : ∀ entry ∈ e.fields, entry.1.asText?.isSome) :
    ∀ entry ∈ e.parts core.own core.exception?, entry.1.asText?.isSome := by
  have hknown : ∀ entry ∈ e.known core, entry.1.asText?.isSome := by
    simp [known, Core.own, Value.asText?, or_imp, forall_and]
  have hattached : ∀ entry ∈ e.fields.filter fun entry => !isReserved entry.1,
      entry.1.asText?.isSome := fun entry hentry => hnames entry (List.mem_of_mem_filter hentry)
  rw [parts_eq]
  exact Value.asText?_isSome_of_mem_foldl (fun value => .text (preview defaultLimit value)) hknown
    hattached

/-- What a line shows under a name is a text, or one of the values that it shows as they are. -/
theorem text_or_whole_of_mem_parts {e : Event} (h : e.Single) {core : Core} {name : String}
    {value : Value} (hvalue : value ∈ valuesUnder (e.parts core.own core.exception?) name) :
    (∃ text, value = .text text) ∨ value ∈ e.wholeValues (core.under e) := by
  by_cases hname : name ∈ Core.names
  · rw [valuesUnder_parts_eq_under h core hname] at hvalue
    obtain ⟨key, hentry, -⟩ := Value.mem_valuesUnder.mp hvalue
    rcases Core.mem_entries hentry with htext | hlevel | hlogger
    · exact .inl htext
    · exact .inr (by simp [wholeValues, hlevel])
    · exact .inr (by simp [wholeValues, hlogger])
  · rw [valuesUnder_parts] at hvalue
    cases hlast : (if reserved.contains name then [] else valuesUnder e.fields name).getLast? with
    | some last =>
      rw [hlast] at hvalue
      exact .inl ⟨_, List.mem_singleton.mp hvalue⟩
    | none =>
      rw [hlast] at hvalue
      obtain ⟨key, hknown, hkey⟩ := Value.mem_valuesUnder.mp hvalue
      rcases mem_known_of_notMem_names hknown hkey hname with hengine | hsubject
      · exact .inr (by simp [wholeValues, hengine])
      · exact .inr (by simp [wholeValues, hsubject])

/-- A line shows the values that it shows as they are. -/
theorem exists_mem_parts_of_whole {e : Event} (h : e.Single) {core : Core} {value : Value}
    (hvalue : value ∈ e.wholeValues (core.under e)) :
    ∃ name, value ∈ valuesUnder (e.parts core.own core.exception?) name := by
  have hgiven {name : String} (hreserved : reserved.contains name)
      (hknown : (.text name, value) ∈ e.known core) :
      value ∈ valuesUnder (e.parts core.own core.exception?) name := by
    rw [valuesUnder_parts, if_pos hreserved]
    exact Value.mem_valuesUnder.mpr ⟨_, hknown, rfl⟩
  obtain ⟨-, hlevel, hlogger, -, -⟩ := (core.under e).valuesUnder_entries
  simp only [wholeValues, List.mem_append, List.mem_cons, List.not_mem_nil, or_false,
    Option.mem_toList] at hvalue
  rcases hvalue with ((rfl | rfl) | hengine) | hsubject
  · refine ⟨"level", ?_⟩
    rw [valuesUnder_parts_eq_under h core (by decide), hlevel, List.mem_singleton]
  · refine ⟨"logger", ?_⟩
    rw [valuesUnder_parts_eq_under h core (by decide), hlogger, List.mem_singleton]
  · exact ⟨"engine", hgiven (by decide) (by simp [known, hengine])⟩
  · exact ⟨"subject", hgiven (by decide) (by simp [known, hsubject])⟩

/-- Where all names are texts, there is a JSON line exactly if the values that are shown as they are can
be written. -/
theorem exists_encode_parts {e : Event} (h : e.Single) (core : Core)
    (hnames : ∀ entry ∈ e.fields, entry.1.asText?.isSome) :
    (∃ text, Json.encode (.mapping (e.parts core.own core.exception?)) = .ok text) ↔
      ∀ value ∈ e.wholeValues (core.under e), ∃ text, Json.encode value = .ok text := by
  rw [Json.exists_encode_mapping]
  constructor
  · intro hall value hvalue
    obtain ⟨name, hshown⟩ := exists_mem_parts_of_whole h hvalue
    obtain ⟨key, hentry, -⟩ := Value.mem_valuesUnder.mp hshown
    exact (hall _ hentry).2
  · intro hwhole entry hentry
    obtain ⟨name, hname⟩ :=
      Option.isSome_iff_exists.mp (asText?_isSome_of_mem_parts hnames entry hentry)
    have hshown : entry.2 ∈ valuesUnder (e.parts core.own core.exception?) name :=
      Value.mem_valuesUnder.mpr ⟨entry.1, hentry, hname⟩
    refine ⟨Json.exists_key_of_asText? hname, ?_⟩
    rcases text_or_whole_of_mem_parts h hshown with ⟨text, htext⟩ | hvalue
    · exact htext ▸ ⟨_, rfl⟩
    · exact hwhole _ hvalue

/-- A line of an event that shows a core and nothing else under its names. In JSON this is a mapping,
and a plain line has the engine and the subject before the message. -/
structure Shows (e : Event) (core : Core) : Prop where
  json : ∃ parts, e.line true = Json.encode (.mapping parts) ∧
    ∀ name ∈ Core.names, valuesUnder parts name = valuesUnder core.entries name
  exists_json : (∀ entry ∈ e.fields, entry.1.asText?.isSome) →
    ((∃ line, e.line true = .ok line) ↔
      ∀ value ∈ e.wholeValues core, ∃ text, Json.encode value = .ok text)
  plain : e.line false = (do
    let level ← plainPart 1 core.level
    let logger ← plainPart 2 core.logger
    let named (name : String) : List String :=
      (e.given name).toList.map fun value => name ++ "=" ++ value.display
    return Value.joined " " (["[" ++ core.time ++ "]", level, logger] ++ named "engine" ++
      named "subject" ++ [": " ++ core.message]))
  exists_plain : (∃ line, e.line false = .ok line) ↔
    core.level.asText?.isSome ∧ core.logger.asText?.isSome

theorem exists_plainPart_iff (position : Nat) (value : Value) :
    (∃ text, plainPart position value = .ok text) ↔ value.asText?.isSome := by
  cases h : value.asText? <;> simp [plainPart, h]

theorem shows_under {e : Event} (h : e.Single) {core : Core} (hcore : e.core = .ok core) :
    e.Shows (core.under e) := by
  have hparts {name : String} (hname : name ∈ Core.names) := valuesUnder_parts_eq_under h core hname
  have hjson : e.line true = Json.encode (.mapping (e.parts core.own core.exception?)) := by
    rw [line_eq, hcore]
    rfl
  have hplain : e.line false = e.plainLine (e.parts core.own core.exception?) := by
    rw [line_eq, hcore]
    rfl
  have hline : e.line false = (do
      let level ← plainPart 1 (core.under e).level
      let logger ← plainPart 2 (core.under e).logger
      let named (name : String) : List String :=
        (e.given name).toList.map fun value => name ++ "=" ++ value.display
      return Value.joined " " (["[" ++ (core.under e).time ++ "]", level, logger] ++
        named "engine" ++ named "subject" ++ [": " ++ (core.under e).message])) := by
    obtain ⟨htime, hlevel, hlogger, hmessage, -⟩ := (core.under e).valuesUnder_entries
    have htime' := hparts (show "timestamp" ∈ Core.names by decide)
    have hlevel' := hparts (show "level" ∈ Core.names by decide)
    have hlogger' := hparts (show "logger" ∈ Core.names by decide)
    have hmessage' := hparts (show "message" ∈ Core.names by decide)
    rw [hplain, plainLine]
    simp only [field?_eq_head?, htime', hlevel', hlogger', hmessage', htime, hlevel, hlogger,
      hmessage]
    rfl
  refine ⟨⟨_, hjson, fun name hname => hparts hname⟩, fun hnames => ?_, hline, ?_⟩
  · simp only [hjson]
    exact exists_encode_parts h core hnames
  · rw [hline]
    simp only [bind_eq_ok, pure_eq_ok, ← exists_plainPart_iff 1 (core.under e).level,
      ← exists_plainPart_iff 2 (core.under e).logger]
    constructor
    · rintro ⟨_, level, hlevel, logger, hlogger, -⟩
      exact ⟨⟨level, hlevel⟩, logger, hlogger⟩
    · rintro ⟨⟨level, hlevel⟩, logger, hlogger⟩
      exact ⟨_, level, hlevel, logger, hlogger, rfl⟩

/-- An exception is told by what counts as given. -/
theorem isSome_troubleText? {trouble : Value} {text? : Option String}
    (h : troubleText? trouble = .ok text?) : text?.isSome ↔ trouble.isTruthy := by
  rw [troubleText?] at h
  split at h
  · rename_i hnot
    rw [← Except.ok.inj h]
    simpa using hnot
  · rename_i htruthy
    obtain ⟨trace, -, h⟩ := bind_eq_ok.mp h
    obtain ⟨_, -, h⟩ := bind_eq_ok.mp h
    obtain ⟨exception, -, h⟩ := bind_eq_ok.mp h
    split at h
    · rw [← pure_eq_ok.mp h]
      simpa using htruthy
    · exact absurd h throw_ne_ok
    · exact absurd h throw_ne_ok

/-- Whether a record tells of an exception. -/
def TellsException (e : Event) : Prop :=
  e.raised?.isSome ∨ ∃ trouble, e.part "exc_info" = .ok trouble ∧ trouble.isTruthy

theorem isSome_exception?_iff {e : Event} {core : Core} (h : e.core = .ok core) :
    core.exception?.isSome ↔ e.TellsException := by
  obtain ⟨-, -, -, -, hexception⟩ := core_eq_ok.mp h
  rw [exceptionText?] at hexception
  split at hexception
  · rename_i text hraised
    rw [← Except.ok.inj hexception]
    simp [TellsException, hraised]
  · rename_i hraised
    obtain ⟨trouble, htrouble, hexception⟩ := bind_eq_ok.mp hexception
    have htells : e.TellsException ↔ trouble.isTruthy = true := by
      simp [TellsException, hraised, htrouble]
    rw [htells, isSome_troubleText? hexception]

theorem isBare_ofLogger (logger levelName message args seconds thousandths : Value) :
    (ofLogger logger levelName message args seconds thousandths).IsBare := by
  simp [IsBare, ofLogger, unattachable]

/-- What is attached leaves a line as it is exactly if nothing is attached under a name of the line, or
only what has the preview that stands there anyway. -/
theorem under_eq_self_iff {core : Core} {e : Event} :
    core.under e = core ↔ ∀ name ∈ Core.openNames, ∀ value, Value.field? e.fields name = some value →
      valuesUnder core.entries name = [.text (preview defaultLimit value)] := by
  have hnames : Core.openNames = ["timestamp", "level", "logger", "exception"] := by decide
  obtain ⟨htime, hlevel, hlogger, -, hexception⟩ := core.valuesUnder_entries
  simp only [hnames, List.forall_mem_cons, htime, hlevel, hlogger, hexception, Core.ext_iff,
    Core.under, previewUnder]
  refine and_congr ?_ (and_congr ?_ (and_congr ?_ ?_))
  · cases Value.field? e.fields "timestamp" <;> simp [eq_comm]
  · cases Value.field? e.fields "level" <;> simp [eq_comm]
  · cases Value.field? e.fields "logger" <;> simp [eq_comm]
  · cases Value.field? e.fields "exception" <;> cases core.exception? <;> simp [eq_comm]

/-- The line of a record to which something is attached. It shows the message of the record. Under the
other names of the line, which are not kept for a record itself, it shows what is attached in place of what
the record tells of itself: so it shows the time, level, logger and exception of the record exactly if
nothing is attached under these names, or only what has the preview that would stand there anyway. A
record has an exception exactly if it tells of one. Where something is attached in place of the way to make
the message, there is no line. -/
theorem line_shows_own_unless_attached {record e : Event} {given : Value} {core : Core}
    (hrecord : record.IsBare) (hcore : record.core = .ok core) (h : attachAll record given = .ok e) :
    (core.exception?.isSome ↔ record.TellsException) ∧
      (∀ value, Value.field? e.fields "getMessage" = some value →
        ∀ json, e.line json = .error (.call (.notCallable value.typeName))) ∧
      (Value.field? e.fields "getMessage" = none →
        e.core = .ok core ∧ e.Shows (core.under e) ∧
          (core.under e = core ↔ ∀ name ∈ Core.openNames, ∀ value,
            Value.field? e.fields name = some value →
              valuesUnder core.entries name = [.text (preview defaultLimit value)])) := by
  have hextends := hrecord.attachAll h
  refine ⟨isSome_exception?_iff hcore, fun value hvalue => hextends.line_eq_error hcore hvalue,
    fun hmessage => ?_⟩
  have hown : e.core = .ok core := (hextends.core_eq hrecord hmessage).trans hcore
  exact ⟨hown, shows_under hextends.single hown, under_eq_self_iff⟩

/-- A record of a failure, with nothing attached to it. -/
def diskFull : Event :=
  { ofLogger (.text "app") (.text "ERROR") (.text "disk full") (.tuple []) with
    statedTime? := some "T" }

/-- A record of a failure is shown with another level. -/
theorem line_shows_attached_level :
    let extra := [(Value.text "level", Value.text "DEBUG"), (.text "user", .text "ann")]
    let e := { diskFull with fields := diskFull.fields ++ extra }
    let core : Core := ⟨"T", .text "ERROR", .text "app", "disk full", none⟩
    diskFull.IsBare ∧ diskFull.core = .ok core ∧ attachAll diskFull (.mapping extra) = .ok e ∧
      e.Shows { core with level := .text "DEBUG" } := by
  intro extra e core
  have hbare : diskFull.IsBare := isBare_ofLogger (.text "app") (.text "ERROR") (.text "disk full")
    (.tuple []) .null .null
  have hcore : diskFull.core = .ok core := rfl
  have hattach : attachAll diskFull (.mapping extra) = .ok e := by rfl
  obtain ⟨-, -, hshows⟩ := line_shows_own_unless_attached hbare hcore hattach
  obtain ⟨-, hshows, -⟩ := hshows rfl
  have hlevel : e.previewUnder "level" = some "DEBUG" := by decide +kernel
  have hother : e.previewUnder "timestamp" = none ∧ e.previewUnder "logger" = none ∧
      e.previewUnder "exception" = none := by decide +kernel
  have hunder : core.under e = { core with level := .text "DEBUG" } := by
    rw [Core.under, hlevel, hother.1, hother.2.1, hother.2.2]
    rfl
  exact ⟨hbare, hcore, hattach, hunder ▸ hshows⟩

/-- A call for a failure writes a line of another level if one is attached to it, and in JSON an
exception though none is told of. -/
theorem attached_level_hides_own :
    let call (extra : List (Value × Value)) : LogCall :=
      { logger := "app", level := .int 40, message := .text "disk full",
        options := .mapping [(.text "extra", .mapping extra)] }
    (call []).write ⟨.info, false⟩ "T" = .ok "[T] ERROR app : disk full\n" ∧
      (call [(.text "level", .text "DEBUG")]).write ⟨.info, false⟩ "T" =
        .ok "[T] DEBUG app : disk full\n" ∧
      (call [(.text "exception", .text "none")]).write ⟨.info, true⟩ "T" =
        .ok ("\x7b\"timestamp\": \"T\", \"level\": \"ERROR\", \"logger\": \"app\", " ++
          "\"message\": \"disk full\", \"exception\": \"none\"\x7d\n") := by
  intro call
  have hwrites {written : Except Misuse String} {line : String} (h : written.toOption = some line) :
      written = .ok line := by
    cases written <;> simp_all [Except.toOption]
  exact ⟨hwrites (by decide +kernel), hwrites (by decide +kernel), hwrites (by decide +kernel)⟩

end Event

end AccessMatrix.Log
