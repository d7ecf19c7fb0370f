import AccessMatrix.Policy.Compiler
import AccessMatrix.Proofs.Distinct
import AccessMatrix.Proofs.Tables
import Mathlib.Data.List.Induction

/-!
# What a round remembers

A round keeps three tables instead of the declarations that were made. What stands in each table is
told from the sequence of declarations alone: the first that matches a key, and for a context's
declaration on itself the last as well. The induction is on the sequence from its end.
-/

namespace AccessMatrix.Policy

/-- A declaration of a role over a subject for every role on the subject. -/
def Declaration.isUnscoped (context role subject : String) (d : Declaration) : Bool :=
  d.context.text = context && d.role.text = role && d.subject.text = subject && d.scope = .every

/-- A declaration that names the role on the subject, or none, of a slot. -/
def Declaration.isExplicit (slot : Slot) (d : Declaration) : Bool :=
  match d.scope with
  | .every => false
  | .only subjectRole => (⟨d.context, d.role, d.subject, subjectRole⟩ : LabelledSlot).slot = slot

/-- A context's declaration on itself that sets the cell of a slot. -/
def Declaration.isSelf (slot : Slot) (d : Declaration) : Bool :=
  slot.subject = slot.context && slot.subjectRole = some slot.role &&
    d.isUnscoped slot.context slot.role slot.subject

theorem Declaration.isUnscoped_iff {context role subject : String} {d : Declaration} :
    d.isUnscoped context role subject = true ↔
      d.context.text = context ∧ d.role.text = role ∧ d.subject.text = subject ∧
        d.scope = .every := by
  simp [isUnscoped, and_assoc]

theorem Declaration.isSelf_iff {slot : Slot} {d : Declaration} :
    d.isSelf slot = true ↔ slot.subject = slot.context ∧ slot.subjectRole = some slot.role ∧
      d.isUnscoped slot.context slot.role slot.subject = true := by
  simp [isSelf, and_assoc]

/-- The actions of the first declaration of a kind. -/
def firstActions (kind : Declaration → Bool) (ds : List Declaration) : Option Actions :=
  (ds.find? kind).map (·.actions.actions)

/-- The actions of the last declaration of a kind. -/
def lastActions (kind : Declaration → Bool) (ds : List Declaration) : Option Actions :=
  firstActions kind ds.reverse

theorem firstActions_concat (kind : Declaration → Bool) (ds : List Declaration) (d : Declaration) :
    firstActions kind (ds ++ [d]) =
      (firstActions kind ds).or (if kind d then some d.actions.actions else none) := by
  by_cases h : kind d = true <;> simp [firstActions, h]

theorem lastActions_concat (kind : Declaration → Bool) (ds : List Declaration) (d : Declaration) :
    lastActions kind (ds ++ [d]) =
      if kind d then some d.actions.actions else lastActions kind ds := by
  by_cases h : kind d = true <;> simp [lastActions, firstActions, h]

namespace Round

/-- The round that a sequence of declarations leaves. -/
def ofDeclarations (ds : List Declaration) : Round :=
  ds.foldl (fun round d => (round.add d).1) {}

theorem ofDeclarations_concat (ds : List Declaration) (d : Declaration) :
    ofDeclarations (ds ++ [d]) = ((ofDeclarations ds).add d).1 := by
  simp [ofDeclarations]

/-- An explicit cell is filled: the first declaration keeps it. -/
theorem addExplicit_fst (round : Round) (place : LabelledSlot) (actions : Actions) :
    (round.addExplicit place actions).1 =
      { round with explicit := round.explicit.fill place.slot actions } := by
  rw [addExplicit, Table.fill_eq_put]
  split <;> rfl

/-- A broad declaration is filled: the first one is kept. -/
theorem addBroad_fst (round : Round) (context role subject : Name) (actions : Actions) :
    (round.addBroad context role subject actions).1 =
      { round with
        broad := round.broad.fill (context.text, role.text, subject.text) actions } := by
  rw [addBroad, Table.fill_eq_put]
  split <;> rfl

/-- What one more declaration does to a round. A context's declaration on itself sets its own cell and
fills its self-policy, one for every role on another entity fills a broad entry, and one that names
the role on the subject fills a cell. -/
theorem add_cases (round : Round) (d : Declaration) :
    (d.scope = .every ∧ d.context.text = d.subject.text ∧
      (round.add d).1 =
        { actions := noteActions round.actions d.actions
          explicit := round.explicit.put
            ⟨d.context.text, d.role.text, d.context.text, some d.role.text⟩ d.actions.actions
          broad := round.broad
          selfPolicies := round.selfPolicies.fill (d.context.text, d.role.text)
            d.actions.actions }) ∨
    (d.scope = .every ∧ d.context.text ≠ d.subject.text ∧
      (round.add d).1 =
        { actions := noteActions round.actions d.actions
          explicit := round.explicit
          broad := round.broad.fill (d.context.text, d.role.text, d.subject.text)
            d.actions.actions
          selfPolicies := round.selfPolicies }) ∨
    (∃ subjectRole, d.scope = .only subjectRole ∧
      (round.add d).1 =
        { actions := noteActions round.actions d.actions
          explicit := round.explicit.fill
            (LabelledSlot.slot ⟨d.context, d.role, d.subject, subjectRole⟩) d.actions.actions
          broad := round.broad
          selfPolicies := round.selfPolicies }) := by
  obtain ⟨context, role, subject, scope, declared⟩ := d
  cases scope with
  | every =>
    by_cases hself : context.text = subject.text
    · refine .inl ⟨rfl, hself, ?_⟩
      simp [add, hself, addSelf, LabelledSlot.slot]
    · refine .inr (.inl ⟨rfl, hself, ?_⟩)
      simp [add, hself, addBroad_fst]
  | only subjectRole =>
    refine .inr (.inr ⟨subjectRole, rfl, ?_⟩)
    simp [add, addExplicit_fst]

/-- One more declaration sets the slot it is the own cell of, and any other slot only if it names it
and nothing was set there. -/
theorem explicit_add (round : Round) (d : Declaration) (slot : Slot) :
    (round.add d).1.explicit.get? slot =
      if d.isSelf slot then some d.actions.actions
      else (round.explicit.get? slot).or
        (if d.isExplicit slot then some d.actions.actions else none) := by
  rcases add_cases round d with ⟨hscope, hself, hadd⟩ | ⟨hscope, hself, hadd⟩ |
    ⟨subjectRole, hscope, hadd⟩
  · have hkey : (⟨d.context.text, d.role.text, d.context.text, some d.role.text⟩ : Slot) = slot ↔
        d.isSelf slot = true := by
      rw [Declaration.isSelf_iff, Declaration.isUnscoped_iff]
      constructor
      · intro hslot
        subst hslot
        exact ⟨rfl, rfl, rfl, rfl, hself.symm, hscope⟩
      · intro hslot
        obtain ⟨hsubject, hsubjectRole, hcontext, hrole, -, -⟩ := hslot
        rw [Slot.mk.injEq]
        exact ⟨hcontext, hrole, hcontext.trans hsubject.symm, hrole ▸ hsubjectRole.symm⟩
    simp [hadd, Table.get?_put, hkey, Declaration.isExplicit, hscope]
  · have hother : d.isSelf slot = false := by
      refine Bool.eq_false_iff.mpr fun hslot => hself ?_
      obtain ⟨hsame, -, hslot⟩ := Declaration.isSelf_iff.mp hslot
      obtain ⟨hcontext, -, hsubject, -⟩ := Declaration.isUnscoped_iff.mp hslot
      exact hcontext.trans (hsame.symm.trans hsubject.symm)
    simp [hadd, hother, Declaration.isExplicit, hscope]
  · simp [hadd, Table.get?_fill, Declaration.isSelf, Declaration.isUnscoped, Declaration.isExplicit,
      hscope]

/-- One more declaration fills the broad entry that it makes over another entity. -/
theorem broad_add (round : Round) (d : Declaration) (context role subject : String) :
    (round.add d).1.broad.get? (context, role, subject) =
      (round.broad.get? (context, role, subject)).or
        (if context ≠ subject ∧ d.isUnscoped context role subject = true
          then some d.actions.actions else none) := by
  simp only [Declaration.isUnscoped_iff]
  rcases add_cases round d with ⟨hscope, hself, hadd⟩ | ⟨hscope, hself, hadd⟩ |
    ⟨subjectRole, hscope, hadd⟩
  · have hother : ¬ (context ≠ subject ∧ d.context.text = context ∧ d.role.text = role ∧
        d.subject.text = subject ∧ d.scope = .every) := by
      intro hmatches
      obtain ⟨hne, hcontext, -, hsubject, -⟩ := hmatches
      exact hne (hcontext.symm.trans (hself.trans hsubject))
    rw [hadd, if_neg hother, Option.or_none]
  · have hkey : (d.context.text, d.role.text, d.subject.text) = (context, role, subject) ↔
        context ≠ subject ∧ d.context.text = context ∧ d.role.text = role ∧
          d.subject.text = subject ∧ d.scope = .every := by
      rw [Prod.mk.injEq, Prod.mk.injEq]
      constructor
      · intro hkey
        obtain ⟨hcontext, hrole, hsubject⟩ := hkey
        exact ⟨hcontext ▸ hsubject ▸ hself, hcontext, hrole, hsubject, hscope⟩
      · intro hmatches
        obtain ⟨-, hcontext, hrole, hsubject, -⟩ := hmatches
        exact ⟨hcontext, hrole, hsubject⟩
    rw [hadd, Table.get?_fill]
    simp only [hkey]
  · simp [hadd, hscope]

/-- One more declaration fills the self-policy that it makes. -/
theorem selfPolicies_add (round : Round) (d : Declaration) (context role : String) :
    (round.add d).1.selfPolicies.get? (context, role) =
      (round.selfPolicies.get? (context, role)).or
        (if d.isUnscoped context role context then some d.actions.actions else none) := by
  simp only [Declaration.isUnscoped_iff]
  rcases add_cases round d with ⟨hscope, hself, hadd⟩ | ⟨hscope, hself, hadd⟩ |
    ⟨subjectRole, hscope, hadd⟩
  · have hkey : (d.context.text, d.role.text) = (context, role) ↔
        d.context.text = context ∧ d.role.text = role ∧ d.subject.text = context ∧
          d.scope = .every := by
      rw [Prod.mk.injEq]
      constructor
      · intro hkey
        obtain ⟨hcontext, hrole⟩ := hkey
        exact ⟨hcontext, hrole, hself.symm.trans hcontext, hscope⟩
      · intro hmatches
        obtain ⟨hcontext, hrole, -, -⟩ := hmatches
        exact ⟨hcontext, hrole⟩
    rw [hadd, Table.get?_fill]
    simp only [hkey]
  · have hother : ¬ (d.context.text = context ∧ d.role.text = role ∧ d.subject.text = context ∧
        d.scope = .every) := by
      intro hmatches
      obtain ⟨hcontext, -, hsubject, -⟩ := hmatches
      exact hself (hcontext.trans hsubject.symm)
    rw [hadd, if_neg hother, Option.or_none]
  · simp [hadd, hscope]

/-- One more declaration notes its actions, which the tiers do not touch. -/
theorem actions_add (round : Round) (d : Declaration) :
    (round.add d).1.actions = noteActions round.actions d.actions := by
  rcases add_cases round d with ⟨-, -, hadd⟩ | ⟨-, -, hadd⟩ | ⟨_, -, hadd⟩
  all_goals rw [hadd]

/-- The last declaration of a context on itself sets its own cell; any other slot has the first
declaration that names it. -/
theorem explicit_ofDeclarations (ds : List Declaration) (slot : Slot) :
    (ofDeclarations ds).explicit.get? slot =
      (lastActions (Declaration.isSelf slot) ds).or
        (firstActions (Declaration.isExplicit slot) ds) := by
  induction ds using List.reverseRecOn with
  | nil => rfl
  | append_singleton ds d ih =>
    rw [ofDeclarations_concat, explicit_add, ih, lastActions_concat, firstActions_concat]
    split
    · rfl
    · rw [Option.or_assoc]

/-- A role over another entity has the first declaration for every role there. -/
theorem broad_ofDeclarations (ds : List Declaration) (context role subject : String) :
    (ofDeclarations ds).broad.get? (context, role, subject) =
      if context = subject then none
      else firstActions (Declaration.isUnscoped context role subject) ds := by
  induction ds using List.reverseRecOn with
  | nil => split <;> rfl
  | append_singleton ds d ih =>
    rw [ofDeclarations_concat, broad_add, ih, firstActions_concat]
    by_cases h : context = subject <;> simp [h]

/-- A role of a context has the first declaration of the context on itself. -/
theorem selfPolicies_ofDeclarations (ds : List Declaration) (context role : String) :
    (ofDeclarations ds).selfPolicies.get? (context, role) =
      firstActions (Declaration.isUnscoped context role context) ds := by
  induction ds using List.reverseRecOn with
  | nil => rfl
  | append_singleton ds d ih => rw [ofDeclarations_concat, selfPolicies_add, ih, firstActions_concat]

/-- Actions that stand in some table of a round. -/
def Holds (round : Round) (actions : Actions) : Prop :=
  (∃ entry ∈ round.explicit, entry.2 = actions) ∨ (∃ entry ∈ round.broad, entry.2 = actions) ∨
    ∃ entry ∈ round.selfPolicies, entry.2 = actions

/-- One more declaration adds no other actions than its own. -/
theorem Holds.of_add {round : Round} {d : Declaration} {actions : Actions}
    (h : (round.add d).1.Holds actions) : round.Holds actions ∨ d.actions.actions = actions := by
  rcases add_cases round d with ⟨-, -, hadd⟩ | ⟨-, -, hadd⟩ | ⟨_, -, hadd⟩
  all_goals
    rw [hadd] at h
    rcases h with ⟨entry, hentry, rfl⟩ | ⟨entry, hentry, rfl⟩ | ⟨entry, hentry, rfl⟩
  · exact (Table.mem_put hentry).imp (fun h => .inl ⟨entry, h, rfl⟩) fun h => by rw [h]
  · exact .inl (.inr (.inl ⟨entry, hentry, rfl⟩))
  · exact (Table.mem_fill hentry).imp (fun h => .inr (.inr ⟨entry, h, rfl⟩)) fun h => by rw [h]
  · exact .inl (.inl ⟨entry, hentry, rfl⟩)
  · exact (Table.mem_fill hentry).imp (fun h => .inr (.inl ⟨entry, h, rfl⟩)) fun h => by rw [h]
  · exact .inl (.inr (.inr ⟨entry, hentry, rfl⟩))
  · exact (Table.mem_fill hentry).imp (fun h => .inl ⟨entry, h, rfl⟩) fun h => by rw [h]
  · exact .inl (.inr (.inl ⟨entry, hentry, rfl⟩))
  · exact .inl (.inr (.inr ⟨entry, hentry, rfl⟩))

/-- What a round holds was declared. -/
theorem Holds.declared {ds : List Declaration} {actions : Actions}
    (h : (ofDeclarations ds).Holds actions) : ∃ d ∈ ds, d.actions.actions = actions := by
  induction ds using List.reverseRecOn with
  | nil => simp [ofDeclarations, Holds] at h
  | append_singleton ds d ih =>
    rw [ofDeclarations_concat] at h
    rcases h.of_add with hbefore | hlast
    · obtain ⟨other, hother, hactions⟩ := ih hbefore
      exact ⟨other, List.mem_append_left _ hother, hactions⟩
    · exact ⟨d, by simp, hlast⟩

/-- A round knows every action of its declarations once, in the order of their first mention. -/
theorem actions_ofDeclarations (ds : List Declaration) :
    (ofDeclarations ds).actions.map Name.text =
      (ds.flatMap fun d => d.actions.map fun entry => entry.1.text).eraseDups := by
  induction ds using List.reverseRecOn with
  | nil => rfl
  | append_singleton ds d ih =>
    rw [ofDeclarations_concat, actions_add, noteActions, map_eraseDupsBy, List.map_append, ih,
      eraseDups_eraseDups_append]
    simp [Function.comp_def]

/-- What a round remembers of declarations, told from their sequence alone: every action once, in the
order of the first mentions; in a context's own cell what it last declared on itself, and in any other
slot what was first declared there; for every role of a subject what was first declared; and for a role
of a context what the context first declared on itself. -/
structure Remembers (round : Round) (ds : List Declaration) : Prop where
  actions : round.actions.map Name.text =
    (ds.flatMap fun d => d.actions.map fun entry => entry.1.text).eraseDups
  explicit (slot : Slot) : round.explicit.get? slot =
    (lastActions (Declaration.isSelf slot) ds).or (firstActions (Declaration.isExplicit slot) ds)
  broad (context role subject : String) : round.broad.get? (context, role, subject) =
    if context = subject then none
    else firstActions (Declaration.isUnscoped context role subject) ds
  selfPolicies (context role : String) : round.selfPolicies.get? (context, role) =
    firstActions (Declaration.isUnscoped context role context) ds

theorem remembers_ofDeclarations (ds : List Declaration) : (ofDeclarations ds).Remembers ds where
  actions := actions_ofDeclarations ds
  explicit := explicit_ofDeclarations ds
  broad := broad_ofDeclarations ds
  selfPolicies := selfPolicies_ofDeclarations ds

/-- A round knows the actions that were declared. -/
theorem mem_actions_of_declared {ds : List Declaration} {d : Declaration} (hd : d ∈ ds)
    {action : String} {allowed : Bool} (h : d.actions.actions.get? action = some allowed) :
    action ∈ (ofDeclarations ds).actions.map Name.text := by
  obtain ⟨entry, hentry, hpair⟩ := List.mem_map.mp (Table.mem_of_get? h)
  rw [actions_ofDeclarations, List.mem_eraseDups]
  exact List.mem_flatMap.mpr ⟨d, hd, List.mem_map.mpr ⟨entry, hentry, (Prod.mk.inj hpair).1⟩⟩

/-- A round knows no action twice. -/
theorem nodup_actions_ofDeclarations (ds : List Declaration) :
    ((ofDeclarations ds).actions.map Name.text).Nodup := by
  rw [actions_ofDeclarations]
  exact nodup_eraseDups _

end Round

end AccessMatrix.Policy
