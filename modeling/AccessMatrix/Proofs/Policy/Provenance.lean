import AccessMatrix.Proofs.Policy.Acceptance
import AccessMatrix.Proofs.Policy.Matrix

/-!
# Where granted actions come from

Resolving a round fills slots from the entries of its tables, and every entry is what some declaration
says. So an action that is allowed in a slot was declared as allowed on the subject of the slot, and a
request that declared it maps the action to a switch that is on.
-/

namespace AccessMatrix.Policy

/-- A declaration says some actions of a role of a context over a subject. -/
structure Declaration.Says (d : Declaration) (context role subject : String) (actions : Actions) :
    Prop where
  context_text : d.context.text = context
  role_text : d.role.text = role
  subject_text : d.subject.text = subject
  actions_eq : d.actions.actions = actions

namespace Round

/-- Every entry of a round's tables is what some of the declarations says. -/
structure SaidBy (ds : List Declaration) (round : Round) : Prop where
  explicit : ∀ entry ∈ round.explicit,
    ∃ d ∈ ds, d.Says entry.1.context entry.1.role entry.1.subject entry.2
  broad : ∀ entry ∈ round.broad, ∃ d ∈ ds, d.Says entry.1.1 entry.1.2.1 entry.1.2.2 entry.2
  selfPolicies : ∀ entry ∈ round.selfPolicies,
    ∃ d ∈ ds, d.Says entry.1.1 entry.1.2 entry.1.1 entry.2

theorem SaidBy.mono {ds ds' : List Declaration} {round : Round} (h : round.SaidBy ds)
    (hsub : ds ⊆ ds') : round.SaidBy ds' where
  explicit entry hentry := (h.explicit entry hentry).imp fun _ hd => ⟨hsub hd.1, hd.2⟩
  broad entry hentry := (h.broad entry hentry).imp fun _ hd => ⟨hsub hd.1, hd.2⟩
  selfPolicies entry hentry := (h.selfPolicies entry hentry).imp fun _ hd => ⟨hsub hd.1, hd.2⟩

/-- One more declaration enters what it says and leaves the other entries. -/
theorem SaidBy.add {ds : List Declaration} {round : Round} (h : round.SaidBy ds) {d : Declaration}
    (hd : d ∈ ds) : (round.add d).1.SaidBy ds := by
  rcases add_cases round d with ⟨-, hself, hadd⟩ | ⟨-, -, hadd⟩ | ⟨subjectRole, -, hadd⟩
  · rw [hadd]
    refine ⟨fun entry hentry => ?_, h.broad, fun entry hentry => ?_⟩
    · rcases Table.mem_put hentry with hbefore | rfl
      · exact h.explicit entry hbefore
      · exact ⟨d, hd, rfl, rfl, hself.symm, rfl⟩
    · rcases Table.mem_fill hentry with hbefore | rfl
      · exact h.selfPolicies entry hbefore
      · exact ⟨d, hd, rfl, rfl, hself.symm, rfl⟩
  · rw [hadd]
    refine ⟨h.explicit, fun entry hentry => ?_, h.selfPolicies⟩
    rcases Table.mem_fill hentry with hbefore | rfl
    · exact h.broad entry hbefore
    · exact ⟨d, hd, rfl, rfl, rfl, rfl⟩
  · rw [hadd]
    refine ⟨fun entry hentry => ?_, h.broad, h.selfPolicies⟩
    rcases Table.mem_fill hentry with hbefore | rfl
    · exact h.explicit entry hbefore
    · exact ⟨d, hd, rfl, rfl, rfl, rfl⟩

/-- All that a round holds is what its declarations say. -/
theorem saidBy_ofDeclarations (ds : List Declaration) : (ofDeclarations ds).SaidBy ds := by
  induction ds using List.reverseRecOn with
  | nil => exact ⟨nofun, nofun, nofun⟩
  | append_singleton ds d ih =>
    rw [ofDeclarations_concat]
    exact (ih.mono (List.subset_append_left _ _)).add (by simp)

/-- What a slot resolves to was declared over the subject of the slot. -/
theorem declared_of_get?_resolve {g : Graph} {ds : List Declaration} {slot : Slot}
    {actions : Actions} (h : ((ofDeclarations ds).resolve g).get? slot = some actions) :
    ∃ d ∈ ds, d.subject.text = slot.subject ∧ d.actions.actions = actions := by
  have hsaid := saidBy_ofDeclarations ds
  rcases get?_resolve_cases h with hexplicit | ⟨entry, hentry, hslot, rfl⟩ |
    ⟨entry, hentry, hslot, rfl⟩
  · obtain ⟨d, hd, hsays⟩ := hsaid.explicit _ hexplicit
    exact ⟨d, hd, hsays.subject_text, hsays.actions_eq⟩
  · obtain ⟨d, hd, hsays⟩ := hsaid.broad entry hentry
    obtain ⟨hkey, -⟩ := mem_broadSlots.mp hslot
    exact ⟨d, hd, hsays.subject_text.trans (by rw [hkey]), hsays.actions_eq⟩
  · obtain ⟨d, hd, hsays⟩ := hsaid.selfPolicies entry hentry
    refine ⟨d, hd, hsays.subject_text.trans ?_, hsays.actions_eq⟩
    rcases mem_selfSlots.mp hslot with ⟨hsubject, -, -⟩ | rfl
    · exact hsubject
    · rfl

end Round

/-- A cell that grants an action does so by a declaration on its subject that allows the action. -/
theorem Snapshot.declared_of_granted {g : Graph} {ds : List Declaration} {cell : Cell}
    (h : cell ∈ (compile g (.ofDeclarations ds)).cells) {action : String}
    (hgranted : cell.actions.get? action = some true) :
    ∃ d ∈ ds, d.subject.text = cell.subject ∧ d.actions.actions.get? action = some true := by
  obtain ⟨-, hallows⟩ := (get?_of_mem_cells h action).mp hgranted
  rw [allows] at hallows
  cases hslot : ((Round.ofDeclarations ds).resolve g).get? cell.slot with
  | none => simp [hslot, Table.get?_nil] at hallows
  | some actions =>
    obtain ⟨d, hd, hsubject, rfl⟩ := Round.declared_of_get?_resolve hslot
    rw [hslot, Option.getD_some, Option.getD_eq_iff, or_iff_left (by simp)] at hallows
    exact ⟨d, hd, hsubject, hallows⟩

/-- What a mapping declares of an action is told by the value that it has for the action. -/
theorem lookup_of_switches {entries : List (Value × Value)} {declared : Declared}
    (h : List.Forall₂ Switches entries declared) {action : String} {allowed : Bool}
    (hdeclared : declared.actions.get? action = some allowed) :
    ∃ value, Value.lookup entries (.text action) = some value ∧
      (value = .bool allowed ∨ ∃ n : Int, value = .int n ∧ (allowed = true ↔ n ≠ 0)) := by
  induction h with
  | nil => simp [Declared.actions, Table.get?_nil] at hdeclared
  | @cons entry first entries others hfirst _ ih =>
    have hkey : entry.1.sameKey (.text action) = (first.1.text == action) := by
      rw [← hfirst.action]
      cases first.1 <;> rfl
    change Table.get? ((first.1.text, first.2) :: Declared.actions others) action = _ at hdeclared
    rw [Table.get?_cons] at hdeclared
    rw [Value.lookup, List.find?_cons, hkey]
    by_cases hsame : first.1.text = action
    · obtain rfl : first.2 = allowed := by simpa [hsame] using hdeclared
      exact ⟨entry.2, by simp [hsame], hfirst.switch⟩
    · rw [beq_eq_false_iff_ne.mpr hsame]
      exact ih (by simpa [hsame] using hdeclared)

end AccessMatrix.Policy
