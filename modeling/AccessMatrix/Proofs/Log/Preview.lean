import AccessMatrix.Proofs.Evaluation.Rejection
import AccessMatrix.Proofs.Text.Words

/-!
# Bounded previews

A preview is a tidy text of at most the limit's length, and a preview of it is itself. It is the text of
the value with one space between its words, or the beginning of that text and an ellipsis. So the
warning of a rejected input is one line, however long the input and the failure are. Every value has a
preview unless it holds an integer of more digits than are written.
-/

namespace AccessMatrix

/-- An integer stands in a value: it is the value, or stands in an item, a key or an entry. -/
inductive Value.HoldsInt (n : Int) : Value → Prop
  | int : HoldsInt n (.int n)
  | list {items : List Value} {item : Value} (hitem : item ∈ items) (h : HoldsInt n item) :
      HoldsInt n (.list items)
  | tuple {items : List Value} {item : Value} (hitem : item ∈ items) (h : HoldsInt n item) :
      HoldsInt n (.tuple items)
  | key {entries : List (Value × Value)} {entry : Value × Value} (hentry : entry ∈ entries)
      (h : HoldsInt n entry.1) : HoldsInt n (.mapping entries)
  | entry {entries : List (Value × Value)} {entry : Value × Value} (hentry : entry ∈ entries)
      (h : HoldsInt n entry.2) : HoldsInt n (.mapping entries)

namespace Value

theorem haveTexts_iff {items : List Value} :
    haveTexts items = true ↔ ∀ item ∈ items, item.hasText = true := by
  induction items with
  | nil => simp [haveTexts]
  | cons item rest ih => simp [haveTexts, ih]

theorem entriesHaveTexts_iff {entries : List (Value × Value)} :
    entriesHaveTexts entries = true ↔
      ∀ entry ∈ entries, entry.1.hasText = true ∧ entry.2.hasText = true := by
  induction entries with
  | nil => simp [entriesHaveTexts]
  | cons entry rest ih => simp [entriesHaveTexts, ih, and_assoc]

/-- Every integer in a value has at most as many digits as are written. -/
def ShortInts (v : Value) : Prop := ∀ n, v.HoldsInt n → n.natAbs < Nat.pow 10 digitLimit

mutual

theorem hasText_of_shortInts : (v : Value) → v.ShortInts → v.hasText = true
  | .int n, h => by simpa [hasText] using h n .int
  | .list items, h => haveTexts_of_shortInts items fun _ hitem n hn => h n (.list hitem hn)
  | .tuple items, h => haveTexts_of_shortInts items fun _ hitem n hn => h n (.tuple hitem hn)
  | .mapping entries, h => entriesHaveTexts_of_shortInts entries fun _ hentry =>
      ⟨fun n hn => h n (.key hentry hn), fun n hn => h n (.entry hentry hn)⟩
  | .null, _ | .bool _, _ | .float _, _ | .text _, _ | .level _, _ | .styled _, _ => rfl

theorem haveTexts_of_shortInts : (items : List Value) → (∀ item ∈ items, item.ShortInts) →
    haveTexts items = true
  | [], _ => rfl
  | item :: rest, h => by
    obtain ⟨hitem, hrest⟩ := List.forall_mem_cons.mp h
    simp [haveTexts, hasText_of_shortInts item hitem, haveTexts_of_shortInts rest hrest]

theorem entriesHaveTexts_of_shortInts : (entries : List (Value × Value)) →
    (∀ entry ∈ entries, entry.1.ShortInts ∧ entry.2.ShortInts) → entriesHaveTexts entries = true
  | [], _ => rfl
  | (key, value) :: rest, h => by
    obtain ⟨⟨hkey, hvalue⟩, hrest⟩ := List.forall_mem_cons.mp h
    simp [entriesHaveTexts, hasText_of_shortInts key hkey, hasText_of_shortInts value hvalue,
      entriesHaveTexts_of_shortInts rest hrest]

end

/-- A value has a text exactly if every integer in it has at most as many digits as are written. -/
theorem hasText_iff (v : Value) : v.hasText = true ↔ v.ShortInts := by
  refine ⟨fun h n hn => ?_, hasText_of_shortInts v⟩
  induction hn with
  | int => simpa [hasText] using h
  | list hitem _ ih => exact ih (haveTexts_iff.mp h _ hitem)
  | tuple hitem _ ih => exact ih (haveTexts_iff.mp h _ hitem)
  | key hentry _ ih => exact ih (entriesHaveTexts_iff.mp h _ hentry).1
  | entry hentry _ ih => exact ih (entriesHaveTexts_iff.mp h _ hentry).2

end Value

namespace Json

open Outcome

/-- The only reason that keeps a value with a text from having a JSON text is a key. -/
def KeyFault (misuse : Misuse) : Prop := ∃ kind, misuse = .unwritableKey kind

theorem key_error {value : Value} {misuse : Misuse} (hvalue : value.hasText = true)
    (h : key value = .error misuse) : KeyFault misuse := by
  cases value with
  | int n => simp [key, integer, Value.checkText, hvalue, bind, Except.bind, pure, Except.pure] at h
  | list items | tuple items | mapping entries => exact ⟨_, (Except.error.inj h).symm⟩
  | null | bool b | float x | text s | level l | styled s => simp [key] at h

mutual

theorem encode_error {misuse : Misuse} : (value : Value) → value.hasText = true →
    encode value = .error misuse → KeyFault misuse
  | .int n, hvalue, h => by
    simp [encode, integer, Value.checkText, hvalue, bind, Except.bind, pure, Except.pure] at h
  | .list items, hvalue, h => by
    obtain hfailed | ⟨_, -, hpure⟩ := bind_eq_error.mp h
    · exact encodeAll_error items hvalue hfailed
    · cases hpure
  | .tuple items, hvalue, h => by
    obtain hfailed | ⟨_, -, hpure⟩ := bind_eq_error.mp h
    · exact encodeAll_error items hvalue hfailed
    · cases hpure
  | .mapping entries, hvalue, h => by
    obtain hfailed | ⟨_, -, hpure⟩ := bind_eq_error.mp h
    · exact encodeEntries_error entries hvalue hfailed
    · cases hpure
  | .null, _, h | .bool _, _, h | .float _, _, h | .text _, _, h | .level _, _, h
  | .styled _, _, h => by simp [encode] at h

theorem encodeAll_error {misuse : Misuse} : (items : List Value) → Value.haveTexts items = true →
    encodeAll items = .error misuse → KeyFault misuse
  | [], _, h => by simp [encodeAll] at h
  | item :: rest, hitems, h => by
    rw [Value.haveTexts, Bool.and_eq_true] at hitems
    obtain hfailed | ⟨_, -, h⟩ := bind_eq_error.mp h
    · exact encode_error item hitems.1 hfailed
    obtain hfailed | ⟨_, -, hpure⟩ := bind_eq_error.mp h
    · exact encodeAll_error rest hitems.2 hfailed
    · cases hpure

theorem encodeEntries_error {misuse : Misuse} : (entries : List (Value × Value)) →
    Value.entriesHaveTexts entries = true → encodeEntries entries = .error misuse →
    KeyFault misuse
  | [], _, h => by simp [encodeEntries] at h
  | (name, value) :: rest, hentries, h => by
    simp only [Value.entriesHaveTexts, Bool.and_eq_true] at hentries
    obtain hfailed | ⟨_, -, h⟩ := bind_eq_error.mp h
    · exact key_error hentries.1.1 hfailed
    obtain hfailed | ⟨_, -, h⟩ := bind_eq_error.mp h
    · exact encode_error value hentries.1.2 hfailed
    obtain hfailed | ⟨_, -, hpure⟩ := bind_eq_error.mp h
    · exact encodeEntries_error rest hentries.2 hfailed
    · cases hpure

end

end Json

namespace Log

open Text (IsTidy OneLine collapse isTidy_collapse joined)

/-- The text that a preview is made of: none for the absent value, a text itself, the word of a truth
value, the digits of a number, and the JSON text of a collection or, where a key keeps it from having one,
its display. -/
inductive Pictures : Value → String → Prop
  | absent : Pictures .null ""
  | text {value : Value} {s : String} (h : value.asText? = some s) : Pictures value s
  | switch (b : Bool) : Pictures (.bool b) (if b then "True" else "False")
  | integer (n : Int) : Pictures (.int n) (toString n)
  | float (x : Binary64) : Pictures (.float x) x.display
  | json {value : Value} {s : String} (hitems : value.items?.isSome) (htext : value.asText? = none)
      (h : Json.encode value = .ok s) : Pictures value s
  | shown {value : Value} {kind : String} (h : Json.encode value = .error (.unwritableKey kind)) :
      Pictures value value.display

theorem length_cut {limit : Int} (h : 1 ≤ limit) (s : List Char) :
    ((cut limit s).length : Int) ≤ limit := by
  rw [cut]
  split
  · rw [takeSigned, if_pos (by omega), List.length_append, List.length_take, List.length_singleton]
    omega
  · omega

/-- A text that is short enough is not cut. -/
theorem cut_of_le {limit : Int} {s : List Char} (h : (s.length : Int) ≤ limit) : cut limit s = s :=
  if_neg (by omega)

/-- A text that is too long is cut before its last places. -/
theorem cut_of_lt {limit : Int} (hlimit : 1 ≤ limit) {s : List Char} (h : limit < s.length) :
    cut limit s = s.take (limit - 1).toNat ++ [ellipsis] := by
  rw [cut, if_pos h, takeSigned, if_pos (by omega)]

theorem isTidy_cut {limit : Int} (h : 1 ≤ limit) {s : List Char} (hs : IsTidy s) :
    IsTidy (cut limit s) := by
  by_cases hlong : limit < s.length
  · rw [cut_of_lt h hlong]
    exact hs.take_concat _ (by decide)
  · rwa [cut_of_le (Int.not_lt.mp hlong)]

/-- A tidy text of at most a limit's length that is its own preview within the limit. -/
structure IsPreview (limit : Int) (shown : String) : Prop where
  length_le : (shown.length : Int) ≤ limit
  tidy : IsTidy shown.toList
  stable : previewOfText limit shown = shown

theorem toList_previewOfText (limit : Int) (s : String) :
    (previewOfText limit s).toList = cut limit (collapse s).toList :=
  String.toList_ofList

theorem isPreview_previewOfText {limit : Int} (h : 1 ≤ limit) (s : String) :
    IsPreview limit (previewOfText limit s) := by
  have hlength : ((previewOfText limit s).length : Int) ≤ limit := by
    rw [← String.length_toList, toList_previewOfText]
    exact length_cut h _
  have htidy : IsTidy (previewOfText limit s).toList := by
    rw [toList_previewOfText]
    exact isTidy_cut h (isTidy_collapse s)
  refine ⟨hlength, htidy, ?_⟩
  rw [previewOfText, htidy.collapse_eq, cut_of_le (by rwa [String.length_toList]),
    String.ofList_toList]

/-- The absent value has the preview of the empty text. -/
theorem preview_eq {limit : Int} (h : 1 ≤ limit) (value : Value) :
    preview limit value = previewOfText limit (previewText value) := by
  cases value with
  | null =>
    have hempty : (collapse "").toList = [] := by decide
    rw [preview, previewText, previewOfText, hempty, cut_of_le (by simp; omega)]
  | _ => rfl

/-- A value with a text has a preview. -/
theorem previewWithin_eq (limit : Int) {value : Value} (h : value.hasText = true) :
    previewWithin (.int limit) value = .ok (preview limit value) := by
  simp only [previewWithin, Value.checkText, h, if_true]
  cases value <;> rfl

/-- A value without a text has no preview, whatever the limit is. -/
theorem previewWithin_eq_error (limit : Value) {value : Value} (h : value.hasText = false) :
    previewWithin limit value = .error .tooManyDigits := by
  simp [previewWithin, Value.checkText, h, bind, Except.bind]

/-- The text that a preview is made of pictures the value. -/
theorem pictures_previewText {value : Value} (h : value.hasText = true) :
    Pictures value (previewText value) := by
  cases value with
  | null => exact .absent
  | bool b => exact .switch b
  | int n => exact .integer n
  | float x => exact .float x
  | text s | level s | styled s => exact .text rfl
  | list items | tuple items | mapping entries =>
    rw [previewText]
    split
    · rename_i s hencode
      exact .json rfl rfl hencode
    · rename_i misuse hencode
      obtain ⟨kind, rfl⟩ := Json.encode_error _ h hencode
      exact .shown hencode

end Log

namespace Evaluation

open Log (IsPreview Pictures isPreview_previewOfText pictures_previewText preview preview_eq
  previewOfText previewText previewWithin previewWithin_eq previewWithin_eq_error)
open Text (IsTidy OneLine joined)

/-- The pieces of the warning of a rejected input. -/
theorem toList_rejection (e : Engine) (subject : Value) (error : Error) :
    (rejection e subject error).message.toList =
      "Rejected malformed evaluation input (".toList ++ (error.kind.toList ++ (": ".toList ++
        ((previewOfText failureLimit error.message).toList ++ ("); subject=".toList ++
          (preview Log.defaultLimit subject).toList)))) := by
  unfold rejection Log.Record.ofEngine failureText
  simp only [String.toList_append, List.append_assoc]
  rfl

/-- The warning of a rejected input is one line if the kind of the failure is one. -/
theorem oneLine_rejection (e : Engine) (subject : Value) {error : Error}
    (h : OneLine error.kind.toList) : OneLine (rejection e subject error).message.toList := by
  have hpreview {limit : Int} {shown : String} (hshown : IsPreview limit shown) :
      OneLine shown.toList := hshown.tidy.oneLine
  have htext (text : String) (htext : text.toList.all fun c => !Text.lineEnds.contains c.toNat) :
      OneLine text.toList := by
    simpa [OneLine] using htext
  rw [toList_rejection, preview_eq (by decide)]
  refine (htext _ (by decide)).append (h.append ((htext _ (by decide)).append ?_))
  exact (hpreview (isPreview_previewOfText (by decide) _)).append
    ((htext _ (by decide)).append (hpreview (isPreview_previewOfText (by decide) _)))

/-- The warning of a rejected input is not longer than its fixed words, the kind of the failure and two
previews. -/
theorem length_rejection_le (e : Engine) (subject : Value) (error : Error) :
    (rejection e subject error).message.length ≤ error.kind.length + 450 := by
  have hfailure : ((previewOfText failureLimit error.message).length : Int) ≤ 160 :=
    (isPreview_previewOfText (by decide) _).length_le
  have hsubject : ((preview Log.defaultLimit subject).length : Int) ≤ 240 := by
    rw [preview_eq (by decide)]
    exact (isPreview_previewOfText (by decide) _).length_le
  have hlength := congrArg List.length (toList_rejection e subject error)
  have hopening : "Rejected malformed evaluation input (".length = 37 := by decide
  have hcolon : ": ".length = 2 := by decide
  have hclosing : "); subject=".length = 11 := by decide
  simp only [List.length_append, String.length_toList, hopening, hcolon, hclosing] at hlength
  omega

/-- What the questions about a subject log: their warnings are those of the failure that the input is
rejected for. -/
theorem rejection_of_warning (s : Session) {memberships action subject : Value}
    {ran : Except Error Session.Reply × Session} (h : ran ∈ questions s memberships action subject) :
    ∃ records, ran.2 = s.log records ∧ ∀ record ∈ records, record.level = .warning →
      ∃ error, Rejects s.engine memberships subject error ∧ subject.hasText = true ∧
        record = rejection s.engine subject error := by
  by_cases hmalformed : Malformed s.engine memberships subject
  · obtain ⟨error, herror⟩ := malformed_iff.mp hmalformed
    cases hsubject : subject.hasText with
    | true =>
      refine ⟨[rejection s.engine subject error], ?_, fun record hrecord _ =>
        ⟨error, herror, rfl, List.mem_singleton.mp hrecord⟩⟩
      obtain ⟨hallowed, hexplained, hpolicies, hresolved⟩ := runs_of_rejects s herror hsubject action
      simp only [questions, hallowed, hexplained, hpolicies, hresolved, List.mem_cons,
        List.not_mem_nil, or_false] at h
      obtain rfl | rfl | rfl | rfl := h <;> rfl
    | false =>
      rw [runs_of_unwritten s herror hsubject action ran h]
      exact ⟨[], rfl, fun _ hrecord => absurd hrecord List.not_mem_nil⟩
  · obtain ⟨r, records, hrecords, hallowed, hexplained, hpolicies, hresolved⟩ :=
      runs_of_not_malformed s hmalformed action
    have hquiet : ∀ record ∈ records, record.level = .warning → False := by
      intro record hrecord hlevel
      exact absurd ((hrecords record hrecord).symm.trans hlevel) (by decide)
    simp only [questions, hallowed, hexplained, hpolicies, hresolved, List.mem_cons,
      List.not_mem_nil, or_false] at h
    obtain rfl | rfl | rfl | rfl := h
    · exact ⟨records, rfl, fun record hrecord hlevel => (hquiet record hrecord hlevel).elim⟩
    · exact ⟨records, rfl, fun record hrecord hlevel => (hquiet record hrecord hlevel).elim⟩
    · exact ⟨[], rfl, fun _ hrecord => absurd hrecord List.not_mem_nil⟩
    · exact ⟨[], rfl, fun _ hrecord => absurd hrecord List.not_mem_nil⟩

end Evaluation

end AccessMatrix
