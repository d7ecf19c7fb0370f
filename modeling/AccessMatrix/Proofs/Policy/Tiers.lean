import AccessMatrix.Proofs.Graph.Registered
import AccessMatrix.Proofs.Policy.Rounds

/-!
# Precedence of the tiers

Resolving a round goes through its tables one after the other and fills the slots of every entry.
What a slot of the matrix ends up with is told by precedence alone: of the declarations that reach
it, the one of the highest tier governs.
-/

namespace AccessMatrix.Policy

/-- The names of the ancestors of a registered entity; an unregistered name has none. -/
def ancestorsOf (g : Graph) (name : String) : List String :=
  ((g.find? name).map Entity.ancestors).getD []

/-- The declaration of a role on a subject that stands for it in the cells of contexts above. -/
def selfPolicyFor (g : Graph) (ds : List Declaration) (slot : Slot) : Option Actions :=
  slot.subjectRole.bind fun subjectRole =>
    if slot.context ∈ ancestorsOf g slot.subject then
      firstActions (Declaration.isUnscoped slot.subject subjectRole slot.subject) ds
    else none

/-- The actions that govern a slot of the matrix: those of the last declaration of a context on
itself in its own cell, else of the first one that names the role on the subject, else of the first
one for every role on another entity, else of the subject's first declaration on itself. -/
def governing (g : Graph) (ds : List Declaration) (slot : Slot) : Option Actions :=
  (((lastActions (Declaration.isSelf slot) ds).or
    (firstActions (Declaration.isExplicit slot) ds)).or
      (if slot.context = slot.subject then none
        else firstActions (Declaration.isUnscoped slot.context slot.role slot.subject) ds)).or
    (selfPolicyFor g ds slot)

theorem firstActions_mem {kind : Declaration → Bool} {ds : List Declaration} {actions : Actions}
    (h : firstActions kind ds = some actions) : ∃ d ∈ ds, d.actions.actions = actions := by
  obtain ⟨d, hd, hactions⟩ := Option.map_eq_some_iff.mp h
  exact ⟨d, List.mem_of_find?_eq_some hd, hactions⟩

theorem lastActions_mem {kind : Declaration → Bool} {ds : List Declaration} {actions : Actions}
    (h : lastActions kind ds = some actions) : ∃ d ∈ ds, d.actions.actions = actions := by
  obtain ⟨d, hd, hactions⟩ := firstActions_mem h
  exact ⟨d, List.mem_reverse.mp hd, hactions⟩

/-- What governs a slot was declared. -/
theorem governing_mem {g : Graph} {ds : List Declaration} {slot : Slot} {actions : Actions}
    (h : governing g ds slot = some actions) : ∃ d ∈ ds, d.actions.actions = actions := by
  rcases Option.or_eq_some_iff.mp h with h | ⟨-, h⟩
  · rcases Option.or_eq_some_iff.mp h with h | ⟨-, h⟩
    · rcases Option.or_eq_some_iff.mp h with h | ⟨-, h⟩
      · exact lastActions_mem h
      · exact firstActions_mem h
    · split at h
      · contradiction
      · exact firstActions_mem h
  · obtain ⟨subjectRole, -, h⟩ := Option.bind_eq_some_iff.mp h
    split at h
    · exact firstActions_mem h
    · contradiction

namespace Round

/-- Filling slots is seen in those of them that nothing held. -/
theorem get?_fillSlots (defined : Table Slot Actions) (slots : List Slot) (actions : Actions)
    (slot : Slot) :
    (fillSlots defined slots actions).get? slot =
      (defined.get? slot).or (if slot ∈ slots then some actions else none) := by
  induction slots generalizing defined with
  | nil => simp [fillSlots]
  | cons first rest ih =>
    have hstep : fillSlots defined (first :: rest) actions =
        fillSlots (defined.fill first actions) rest actions := rfl
    rw [hstep, ih, Table.get?_fill, Option.or_assoc]
    by_cases hfirst : first = slot
    · simp [hfirst]
    · simp [hfirst, Ne.symm hfirst]

/-- Going through a table fills a slot from the first entry that covers it. -/
theorem get?_foldl_fillSlots {κ : Type} (slotsOf : κ → List Slot) (table : List (κ × Actions))
    (defined : Table Slot Actions) (slot : Slot) :
    (table.foldl (fun defined entry => fillSlots defined (slotsOf entry.1) entry.2) defined).get?
        slot =
      (defined.get? slot).or ((table.find? fun entry => slot ∈ slotsOf entry.1).map (·.2)) := by
  induction table generalizing defined with
  | nil => simp
  | cons entry rest ih =>
    rw [List.foldl_cons, ih, get?_fillSlots, Option.or_assoc]
    by_cases hentry : slot ∈ slotsOf entry.1 <;> simp [hentry]

/-- What a round resolves to in a slot was recorded for the slot or under a key that covers it. -/
theorem get?_resolve_cases {g : Graph} {round : Round} {slot : Slot} {actions : Actions}
    (h : (round.resolve g).get? slot = some actions) :
    (slot, actions) ∈ round.explicit ∨
      (∃ entry ∈ round.broad, slot ∈ broadSlots g entry.1 ∧ entry.2 = actions) ∨
      ∃ entry ∈ round.selfPolicies, slot ∈ selfSlots g entry.1 ∧ entry.2 = actions := by
  have hcovering {κ : Type} {slotsOf : κ → List Slot} {table : List (κ × Actions)}
      (h : (table.find? fun entry => slot ∈ slotsOf entry.1).map (·.2) = some actions) :
      ∃ entry ∈ table, slot ∈ slotsOf entry.1 ∧ entry.2 = actions := by
    obtain ⟨entry, hentry, rfl⟩ := Option.map_eq_some_iff.mp h
    exact ⟨entry, List.mem_of_find?_eq_some hentry, by simpa using List.find?_some hentry, rfl⟩
  rw [resolve, get?_foldl_fillSlots, get?_foldl_fillSlots] at h
  rcases Option.or_eq_some_iff.mp h with h | ⟨-, h⟩
  · rcases Option.or_eq_some_iff.mp h with h | ⟨-, h⟩
    · exact .inl (Table.mem_of_get? h)
    · exact .inr (.inl (hcovering h))
  · exact .inr (.inr (hcovering h))

/-- What a round resolves to in a slot stands in one of its tables. -/
theorem holds_of_get?_resolve {g : Graph} {round : Round} {slot : Slot} {actions : Actions}
    (h : (round.resolve g).get? slot = some actions) : round.Holds actions := by
  rcases get?_resolve_cases h with hexplicit | ⟨entry, hentry, -, hheld⟩ | ⟨entry, hentry, -, hheld⟩
  · exact .inl ⟨_, hexplicit, rfl⟩
  · exact .inr (.inl ⟨entry, hentry, hheld⟩)
  · exact .inr (.inr ⟨entry, hentry, hheld⟩)

/-- Where exactly one key covers a slot, its entry is the one that is found. -/
theorem find?_covering {κ : Type} [DecidableEq κ] {slotsOf : κ → List Slot} {slot : Slot} {key : κ}
    (hcover : ∀ other, slot ∈ slotsOf other ↔ other = key) (table : Table κ Actions) :
    (table.find? fun entry => slot ∈ slotsOf entry.1).map (·.2) = table.get? key := by
  simp only [hcover, Table.get?]

/-- Where no key covers a slot, nothing is found. -/
theorem find?_uncovered {κ : Type} {slotsOf : κ → List Slot} {slot : Slot}
    (hcover : ∀ other, slot ∉ slotsOf other) (table : List (κ × Actions)) :
    (table.find? fun entry => slot ∈ slotsOf entry.1).map (·.2) = none := by
  simp [hcover]

/-- A broad declaration covers the slots of its own context, role and subject. -/
theorem mem_broadSlots {g : Graph} {key : String × String × String} {slot : Slot} :
    slot ∈ broadSlots g key ↔
      key = (slot.context, slot.role, slot.subject) ∧ slot.subjectRole ∈ scopesOf g slot.subject := by
  obtain ⟨context, role, subject⟩ := key
  obtain ⟨slotContext, slotRole, slotSubject, slotSubjectRole⟩ := slot
  simp only [broadSlots, List.mem_map, Slot.mk.injEq, Prod.mk.injEq]
  constructor
  · intro hmade
    obtain ⟨subjectRole, hscope, rfl, rfl, rfl, rfl⟩ := hmade
    exact ⟨⟨rfl, rfl, rfl⟩, hscope⟩
  · intro hcovers
    obtain ⟨⟨rfl, rfl, rfl⟩, hscope⟩ := hcovers
    exact ⟨slotSubjectRole, hscope, rfl, rfl, rfl, rfl⟩

/-- A self-policy covers the slots of contexts above for its own role, and its own for none. -/
theorem mem_selfSlots {g : Graph} {key : String × String} {slot : Slot} :
    slot ∈ selfSlots g key ↔
      (key.1 = slot.subject ∧ some key.2 = slot.subjectRole ∧
        ∃ above ∈ contextsAbove g slot.subject, above.name = slot.context ∧ slot.role ∈ above.roles) ∨
      slot = ⟨key.1, key.2, key.1, none⟩ := by
  obtain ⟨context, role⟩ := key
  obtain ⟨slotContext, slotRole, slotSubject, slotSubjectRole⟩ := slot
  simp only [selfSlots, List.mem_append, List.mem_flatMap, List.mem_map, List.mem_singleton,
    Slot.mk.injEq]
  constructor
  · intro hmade
    rcases hmade with ⟨above, habove, role, hrole, rfl, rfl, rfl, rfl⟩ | hown
    · exact .inl ⟨rfl, rfl, above, habove, rfl, hrole⟩
    · exact .inr hown
  · intro hcovers
    rcases hcovers with ⟨rfl, rfl, above, habove, rfl, hrole⟩ | hown
    · exact .inl ⟨above, habove, slotRole, hrole, rfl, rfl, rfl, rfl⟩
    · exact .inr hown

/-- The contexts above an entity are the contexts among its ancestors. -/
theorem mem_contextsAbove {g : Graph} (hg : g.Registered) {name : String} {e : Entity} :
    e ∈ contextsAbove g name ↔ e ∈ g.contexts ∧ e.name ∈ ancestorsOf g name := by
  have hfind (other : String) : g.find? other = some e ↔ e ∈ g.entities ∧ e.name = other :=
    Graph.find?_eq_some_iff hg.wellNamed.names_nodup
  have hnearest : e.name ∈ ((g.find? name).map Entity.nearestFirst).getD [] ↔
      e.name ∈ ancestorsOf g name := by
    rw [ancestorsOf]
    cases hname : g.find? name with
    | none => rfl
    | some found =>
      exact (hg.related found (List.mem_of_find?_eq_some hname)).mem_nearestFirst e.name
  rw [← hnearest]
  simp only [contextsAbove, Graph.contextsAmong, Graph.contexts, List.mem_filter,
    List.mem_filterMap, hfind]
  constructor
  · intro hmade
    obtain ⟨⟨other, hother, he, rfl⟩, hcontext⟩ := hmade
    exact ⟨⟨he, hcontext⟩, hother⟩
  · intro habove
    obtain ⟨⟨he, hcontext⟩, hother⟩ := habove
    exact ⟨⟨e.name, hother, he, rfl⟩, hcontext⟩

end Round

/-- The slots of the matrix: a role of a context over a registered entity that does not stand above
it, for a role of that entity or for none, and over itself for that role alone. -/
def InMatrix (g : Graph) (slot : Slot) : Prop :=
  ∃ context ∈ g.contexts, ∃ subject ∈ g.entities,
    context.name = slot.context ∧ slot.role ∈ context.roles ∧ subject.name = slot.subject ∧
      (∀ subjectRole, slot.subjectRole = some subjectRole → subjectRole ∈ subject.roles) ∧
      slot.context ∉ subject.descendants ∧
      (slot.context = slot.subject → slot.subjectRole = some slot.role)

/-- In a slot of the matrix, the broad declarations that cover it are those of its own context, role
and subject. -/
theorem InMatrix.mem_broadSlots {g : Graph} (hg : g.WellNamed) {slot : Slot} (h : InMatrix g slot)
    (key : String × String × String) :
    slot ∈ Round.broadSlots g key ↔ key = (slot.context, slot.role, slot.subject) := by
  obtain ⟨-, -, subject, hsubject, -, -, hname, hroles, -, -⟩ := h
  have hfind : g.find? slot.subject = some subject :=
    (Graph.find?_eq_some_iff hg.names_nodup).mpr ⟨hsubject, hname⟩
  have hscope : slot.subjectRole ∈ Round.scopesOf g slot.subject := by
    simp only [Round.scopesOf, Graph.rolesOf, hfind]
    cases hrole : slot.subjectRole with
    | none => simp
    | some subjectRole => simpa using hroles subjectRole hrole
  rw [Round.mem_broadSlots]
  exact and_iff_left hscope

/-- In a slot of the matrix with a role on the subject, a self-policy that covers it is the subject's
own one for that role, and covers it from a context above. -/
theorem InMatrix.mem_selfSlots {g : Graph} (hg : g.Registered) {slot : Slot} (h : InMatrix g slot)
    (key : String × String) :
    slot ∈ Round.selfSlots g key ↔
      (slot.context ∈ ancestorsOf g slot.subject ∧ some key.2 = slot.subjectRole) ∧
        key.1 = slot.subject := by
  obtain ⟨context, hcontext, -, -, hname, hrole, -, -, -, hown⟩ := h
  have habove : (∃ above ∈ Round.contextsAbove g slot.subject,
      above.name = slot.context ∧ slot.role ∈ above.roles) ↔
        slot.context ∈ ancestorsOf g slot.subject := by
    constructor
    · intro hmade
      obtain ⟨above, habove, hsame, -⟩ := hmade
      exact hsame ▸ ((Round.mem_contextsAbove hg).mp habove).2
    · intro hancestor
      exact ⟨context, (Round.mem_contextsAbove hg).mpr ⟨hcontext, hname ▸ hancestor⟩, hname, hrole⟩
  have hnone : slot ≠ ⟨key.1, key.2, key.1, none⟩ := by
    intro hslot
    subst hslot
    exact absurd (hown rfl) (by simp)
  rw [Round.mem_selfSlots, habove, or_iff_left hnone]
  tauto

/-- What a round resolves to in a slot of the matrix is what governs the slot. -/
theorem get?_resolve {g : Graph} (hg : g.Registered) (ds : List Declaration) {slot : Slot}
    (h : InMatrix g slot) :
    ((Round.ofDeclarations ds).resolve g).get? slot = governing g ds slot := by
  have hself : ((Round.ofDeclarations ds).selfPolicies.find? fun entry =>
      slot ∈ Round.selfSlots g entry.1).map (·.2) = selfPolicyFor g ds slot := by
    have hcover := h.mem_selfSlots hg
    rw [selfPolicyFor]
    cases hrole : slot.subjectRole with
    | none => exact Round.find?_uncovered (fun key => by simp [hcover, hrole]) _
    | some subjectRole =>
      by_cases hancestor : slot.context ∈ ancestorsOf g slot.subject
      · rw [Option.bind_some, if_pos hancestor, ← Round.selfPolicies_ofDeclarations]
        refine Round.find?_covering (fun key => ?_) _
        simp [hcover, hrole, hancestor, Prod.ext_iff, and_comm]
      · rw [Option.bind_some, if_neg hancestor]
        exact Round.find?_uncovered (fun key => by simp [hcover, hancestor]) _
  rw [Round.resolve, Round.get?_foldl_fillSlots, Round.get?_foldl_fillSlots, hself,
    Round.find?_covering (h.mem_broadSlots hg.wellNamed), Round.explicit_ofDeclarations,
    Round.broad_ofDeclarations, governing]

end AccessMatrix.Policy
