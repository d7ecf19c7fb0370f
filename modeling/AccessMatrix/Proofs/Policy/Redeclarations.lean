import AccessMatrix.Proofs.Policy.Order
import AccessMatrix.Proofs.Policy.Tiers

/-!
# Redeclarations

Declarations address places in two of the tables of a round. A context's declaration on itself and one
that names the declared role there address the same cell. A declaration is reported if one before it
has the same place, so there are as many reports as declarations less the places. Only the report of a
context's declaration on itself says that the later declaration replaces the earlier one, and only such
a declaration changes what is compiled into a cell that was declared before.
-/

namespace AccessMatrix.Policy

namespace Declaration

/-- A context's declaration on itself for every role, which makes a self-policy. -/
def isOnSelf (d : Declaration) : Bool := d.scope = .every && d.context.text = d.subject.text

/-- The cell of a role of a context on that context itself. -/
def ownCell (d : Declaration) : LabelledSlot := ⟨d.context, d.role, d.context, some d.role⟩

/-- The place of a declaration: its own cell if it is on itself, else its address. -/
def place (d : Declaration) : Address :=
  if d.isOnSelf then .explicit d.ownCell.slot else d.address

/-- What is reported if the place of a declaration was declared before. -/
def redeclaration (d : Declaration) : Redeclaration :=
  match d.scope with
  | .every =>
    if d.context.text = d.subject.text then ⟨d.ownCell.parts, true⟩
    else ⟨[d.context.display, d.role.display, d.subject.display], false⟩
  | .only subjectRole =>
    ⟨LabelledSlot.parts ⟨d.context, d.role, d.subject, subjectRole⟩, false⟩

theorem isOnSelf_iff {d : Declaration} :
    d.isOnSelf = true ↔ d.scope = .every ∧ d.context.text = d.subject.text := by
  simp [isOnSelf]

theorem replaces_redeclaration (d : Declaration) : d.redeclaration.replaces = d.isOnSelf := by
  rw [redeclaration, isOnSelf]
  cases d.scope with
  | every => by_cases hself : d.context.text = d.subject.text <;> simp [hself]
  | only subjectRole => rfl

end Declaration

namespace Round

/-- Whether a place is declared in a round. -/
def occupies (round : Round) : Address → Bool
  | .explicit slot => round.explicit.has slot
  | .unscoped context role subject => round.broad.has (context, role, subject)

/-- One more declaration occupies its place and no other. -/
theorem occupies_add {round : Round} {d : Declaration} {place : Address} :
    (round.add d).1.occupies place = true ↔ round.occupies place = true ∨ d.place = place := by
  rcases add_cases round d with ⟨hscope, hself, hadd⟩ | ⟨hscope, hself, hadd⟩ |
    ⟨subjectRole, hscope, hadd⟩
  · have hplace : d.place = .explicit d.ownCell.slot := if_pos (by simp [Declaration.isOnSelf, *])
    rw [hadd, hplace]
    cases place with
    | explicit slot => exact Table.has_put.trans (or_congr_right (by simp [Declaration.ownCell, LabelledSlot.slot]))
    | unscoped context role subject => simp [occupies]
  · have hplace : d.place = .unscoped d.context.text d.role.text d.subject.text := by
      simp [Declaration.place, Declaration.isOnSelf, Declaration.address, hscope, hself]
    rw [hadd, hplace]
    cases place with
    | explicit slot => simp [occupies]
    | unscoped context role subject => exact Table.has_fill.trans (or_congr_right (by simp))
  · have hplace : d.place =
        .explicit (LabelledSlot.slot ⟨d.context, d.role, d.subject, subjectRole⟩) := by
      simp [Declaration.place, Declaration.isOnSelf, Declaration.address, hscope]
    rw [hadd, hplace]
    cases place with
    | explicit slot => exact Table.has_fill.trans (or_congr_right (by simp))
    | unscoped context role subject => simp [occupies]

/-- A round occupies the places of its declarations. -/
theorem occupies_ofDeclarations {ds : List Declaration} {place : Address} :
    (ofDeclarations ds).occupies place = true ↔ place ∈ ds.map Declaration.place := by
  induction ds using List.reverseRecOn with
  | nil => cases place <;> simp [ofDeclarations, occupies, Table.has]
  | append_singleton ds d ih =>
    rw [ofDeclarations_concat, occupies_add, ih]
    simp [eq_comm]

/-- A declaration is reported if its place is occupied. -/
theorem add_snd (round : Round) (d : Declaration) :
    (round.add d).2 = if round.occupies d.place then some d.redeclaration else none := by
  obtain ⟨context, role, subject, scope, declared⟩ := d
  cases scope with
  | every =>
    by_cases hself : context.text = subject.text
    · simp [add, hself, addSelf, Declaration.place, Declaration.isOnSelf, Declaration.ownCell,
        Declaration.redeclaration, occupies]
    · simp only [add, hself, addBroad, Declaration.place, Declaration.isOnSelf, Declaration.address,
        Declaration.redeclaration, occupies, if_false, decide_true, decide_false, Bool.and_false,
        Bool.false_eq_true]
      split <;> rfl
  | only subjectRole =>
    simp only [add, addExplicit, Declaration.place, Declaration.isOnSelf, Declaration.address,
      Declaration.redeclaration, occupies, reduceCtorEq, decide_false, Bool.false_and,
      Bool.false_eq_true, if_false]
    split <;> rfl

end Round

/-- The declarations whose place is known or was declared before them. -/
def repeatedAfter : List Address → List Declaration → List Declaration
  | _, [] => []
  | known, d :: later =>
    if d.place ∈ known then d :: repeatedAfter known later
    else repeatedAfter (known ++ [d.place]) later

/-- The declarations whose place was declared before them. -/
def repeated (ds : List Declaration) : List Declaration := repeatedAfter [] ds

theorem repeatedAfter_concat (known : List Address) (ds : List Declaration) (d : Declaration) :
    repeatedAfter known (ds ++ [d]) = repeatedAfter known ds ++
      if d.place ∈ known ∨ d.place ∈ ds.map Declaration.place then [d] else [] := by
  induction ds generalizing known with
  | nil => by_cases hknown : d.place ∈ known <;> simp [repeatedAfter, hknown]
  | cons first rest ih =>
    rw [List.cons_append, repeatedAfter, repeatedAfter, ih, ih]
    by_cases hknown : first.place ∈ known
    · have hsame : (d.place ∈ known ∨ d.place ∈ (first :: rest).map Declaration.place) ↔
          (d.place ∈ known ∨ d.place ∈ rest.map Declaration.place) := by
        rw [List.map_cons, List.mem_cons]
        constructor
        · rintro (hd | hd | hd)
          · exact .inl hd
          · exact .inl (hd ▸ hknown)
          · exact .inr hd
        · exact Or.imp_right .inr
      rw [if_pos hknown, if_pos hknown, List.cons_append, if_congr hsame rfl rfl]
    · rw [if_neg hknown, if_neg hknown]
      simp [or_assoc]

/-- One more declaration is repeated if one before it has the same place. -/
theorem repeated_concat (ds : List Declaration) (d : Declaration) :
    repeated (ds ++ [d]) =
      repeated ds ++ if d.place ∈ ds.map Declaration.place then [d] else [] := by
  simpa [repeated] using repeatedAfter_concat [] ds d

/-- There are as many repeated declarations as declarations less their places. -/
theorem length_repeated (ds : List Declaration) :
    (repeated ds).length + (ds.map Declaration.place).eraseDups.length = ds.length := by
  induction ds using List.reverseRecOn with
  | nil => rfl
  | append_singleton ds d ih =>
    have hplaces : ((ds ++ [d]).map Declaration.place).eraseDups.length =
        (ds.map Declaration.place).eraseDups.length +
          if d.place ∈ ds.map Declaration.place then 0 else 1 := by
      rw [List.map_append, List.map_singleton, List.eraseDups_append, List.length_append]
      by_cases hknown : d.place ∈ ds.map Declaration.place <;>
        simp only [List.removeAll, List.elem_eq_mem, List.filter_cons, List.filter_nil, hknown] <;>
        rfl
    rw [repeated_concat, hplaces, List.length_append, List.length_append]
    by_cases hknown : d.place ∈ ds.map Declaration.place
    · simp only [if_pos hknown, List.length_singleton]
      omega
    · simp only [if_neg hknown, List.length_singleton, List.length_nil]
      omega

/-- The report that one more declaration makes in its round. -/
theorem Round.add_ofDeclarations_snd (ds : List Declaration) (d : Declaration) :
    ((ofDeclarations ds).add d).2 =
      if d.place ∈ ds.map Declaration.place then some d.redeclaration else none := by
  rw [add_snd]
  exact if_congr occupies_ofDeclarations rfl rfl

/-- A message says that the later of two declarations replaces the earlier one. -/
def SaysReplaced (message : String) : Prop :=
  "the later declaration replaces the earlier one".toList <:+ message.toList

/-- A report says so if it is of a declaration that replaces. -/
theorem Redeclaration.saysReplaced_iff {r : Redeclaration} :
    SaysReplaced r.message ↔ r.replaces = true := by
  have houtcome (key outcome : String) :
      outcome.toList <:+ s!"Access policy {key} redeclared; {outcome}".toList := by
    simp only [String.toList_append]
    exact List.suffix_append _ _
  unfold SaysReplaced message
  cases hreplaces : r.replaces with
  | true => exact iff_of_true (houtcome _ _) rfl
  | false =>
    -- a message has one end only
    refine iff_of_false (fun hmessage => ?_) Bool.false_ne_true
    rcases List.suffix_or_suffix_of_suffix hmessage (houtcome _ _) with
      hends | hends <;> revert hends <;> decide

section

variable {g : Graph} {round : Round} {d : Declaration}

/-- What is recorded for a cell is compiled into it. -/
theorem Round.get?_resolve_of_explicit {slot : Slot} {actions : Actions}
    (h : round.explicit.get? slot = some actions) :
    (round.resolve g).get? slot = some actions := by
  rw [resolve, get?_foldl_fillSlots, get?_foldl_fillSlots, h]
  rfl

/-- A context's declaration on itself sets its own cell. -/
theorem Round.get?_resolve_add (h : d.isOnSelf = true) :
    ((round.add d).1.resolve g).get? d.ownCell.slot = some d.actions.actions := by
  obtain ⟨hscope, hself⟩ := Declaration.isOnSelf_iff.mp h
  apply get?_resolve_of_explicit
  rcases add_cases round d with ⟨-, -, hadd⟩ | ⟨-, hother, -⟩ | ⟨subjectRole, hother, -⟩
  · rw [hadd]
    exact (Table.get?_put _ _ _ _).trans (if_pos rfl)
  · exact absurd hself hother
  · exact nomatch hscope.symm.trans hother

/-- Any other declaration changes nothing that is compiled if its place is occupied. -/
theorem Round.resolve_add (h : d.isOnSelf = false) (hplace : round.occupies d.place = true) :
    (round.add d).1.resolve g = round.resolve g := by
  rw [Declaration.place, if_neg (by simp [h])] at hplace
  rcases add_cases round d with ⟨hscope, hself, -⟩ | ⟨hscope, -, hadd⟩ | ⟨subjectRole, hscope, hadd⟩
  · exact absurd (Declaration.isOnSelf_iff.mpr ⟨hscope, hself⟩) (by simp [h])
  · rw [Declaration.address, hscope] at hplace
    have hknown : round.broad.has (d.context.text, d.role.text, d.subject.text) = true := hplace
    rw [hadd, Table.fill, if_pos hknown]
    rfl
  · rw [Declaration.address, hscope] at hplace
    have hknown : round.explicit.has
        (LabelledSlot.slot ⟨d.context, d.role, d.subject, subjectRole⟩) = true := hplace
    rw [hadd, Table.fill, if_pos hknown]
    rfl

end

/-- A declaration comes after one at the same place, and its report is right. The report says that the
declaration replaces the earlier one just if it is a context's on itself. Such a declaration is what
is then declared for its own cell, and any other one leaves all as it was; so only the first can
change, by what it declares, what is declared for its cell. -/
structure ReportedRightly (g : Graph) (before : List Declaration) (d : Declaration) : Prop where
  message : SaysReplaced d.redeclaration.message ↔ d.isOnSelf = true
  replaces : d.isOnSelf = true →
    (Snapshot.compile g (.ofDeclarations (before ++ [d]))).declared d.ownCell.slot =
      d.actions.actions
  ignored : d.isOnSelf = false →
    (Snapshot.compile g (.ofDeclarations (before ++ [d]))).defined =
      (Snapshot.compile g (.ofDeclarations before)).defined
  changes : d.isOnSelf = true ↔ ∃ slot, d.place = .explicit slot ∧ ∃ actions,
    (Snapshot.compile g (.ofDeclarations (before ++ [{ d with actions }]))).declared slot ≠
      (Snapshot.compile g (.ofDeclarations before)).declared slot

/-- Some actions to declare differ from any that were declared. -/
theorem exists_actions_ne (old : Actions) : ∃ declared : Declared, declared.actions ≠ old := by
  cases old with
  | nil => exact ⟨[(.plain "read", true)], by decide⟩
  | cons entry rest => exact ⟨[], List.cons_ne_nil entry rest |>.symm⟩

/-- A declaration at a place that was declared before is reported rightly. -/
theorem reportedRightly (g : Graph) {before : List Declaration} {d : Declaration}
    (h : d.place ∈ before.map Declaration.place) : ReportedRightly g before d := by
  have hmessage : SaysReplaced d.redeclaration.message ↔ d.isOnSelf = true := by
    rw [Redeclaration.saysReplaced_iff, Declaration.replaces_redeclaration]
  have hreplaces (d : Declaration) (hself : d.isOnSelf = true) :
      (Snapshot.compile g (.ofDeclarations (before ++ [d]))).declared d.ownCell.slot =
        d.actions.actions := by
    rw [Round.ofDeclarations_concat]
    exact congrArg (Option.getD · []) (Round.get?_resolve_add hself)
  have hignored (d : Declaration) (hself : d.isOnSelf = false)
      (hplace : d.place ∈ before.map Declaration.place) :
      (Snapshot.compile g (.ofDeclarations (before ++ [d]))).defined =
        (Snapshot.compile g (.ofDeclarations before)).defined := by
    rw [Round.ofDeclarations_concat]
    exact Round.resolve_add hself (Round.occupies_ofDeclarations.mpr hplace)
  refine ⟨hmessage, hreplaces d, fun hself => hignored d hself h, fun hself => ?_, ?_⟩
  · obtain ⟨actions, hactions⟩ :=
      exists_actions_ne ((Snapshot.compile g (.ofDeclarations before)).declared d.ownCell.slot)
    refine ⟨d.ownCell.slot, if_pos hself, actions, ?_⟩
    exact fun hsame => hactions ((hreplaces { d with actions } hself).symm.trans hsame)
  · rintro ⟨slot, -, actions, hchanged⟩
    by_contra hself
    apply hchanged
    have hsame := hignored { d with actions } (Bool.eq_false_iff.mpr hself) h
    rw [Snapshot.declared, hsame, Snapshot.declared]

end AccessMatrix.Policy
