import AccessMatrix.Proofs.Policy.Index
import AccessMatrix.Proofs.Policy.UniqueKeys

/-!
# Plain names

A name that was given as a text is shown as that text. Where all names of a graph are plain, the keys
of a compilation are those of its cells as they stand, and where they hold no dash as well, a cell is
found again from its key alone.
-/

namespace AccessMatrix

/-- A name that was given as a text. -/
def Name.IsPlain (n : Name) : Prop := n = .plain n.text

instance (n : Name) : Decidable n.IsPlain := inferInstanceAs (Decidable (n = .plain n.text))

/-- A plain name is shown as its text. -/
theorem Name.IsPlain.display {n : Name} (h : n.IsPlain) : n.display = n.text := by
  rw [h]
  rfl

/-- A name that is of a class of its own, other than a log level, is shown as its text. -/
def Name.StyleKeepsText : Name → Prop
  | .styled s => s.shown = s.text
  | _ => True

instance : DecidablePred Name.StyleKeepsText
  | .plain _ | .level _ => isTrue trivial
  | .styled s => inferInstanceAs (Decidable (s.shown = s.text))

/-- The entities and roles of a graph have plain names without dashes. -/
structure Graph.PlainlyNamed (g : Graph) : Prop where
  label : ∀ e ∈ g.entities, e.label.IsPlain
  undashed : ∀ e ∈ g.entities, Policy.Undashed e.name
  roleLabel : ∀ e ∈ g.entities, ∀ role ∈ e.roleLabels, role.IsPlain
  role_undashed : ∀ e ∈ g.entities, ∀ role ∈ e.roles, Policy.Undashed role

namespace Graph.PlainlyNamed

variable {g : Graph}

/-- The label of a plain name is the name. -/
theorem labelOf (h : g.PlainlyNamed) (name : String) : g.labelOf name = .plain name := by
  rw [Graph.labelOf]
  cases hfind : g.find? name with
  | none => rfl
  | some e =>
    have hname : e.name = name := Graph.name_of_find? hfind
    have hlabel := h.label e (List.mem_of_find?_eq_some hfind)
    rw [Option.map_some, Option.getD_some, hlabel, ← hname]
    rfl

/-- The label of a role with a plain name is the name. -/
theorem roleLabelOf (h : g.PlainlyNamed) (name role : String) :
    g.roleLabelOf name role = .plain role := by
  rw [Graph.roleLabelOf, Graph.roleLabelsOf]
  cases hfind : g.find? name with
  | none => rfl
  | some e =>
    rw [Option.map_some, Option.getD_some]
    cases hrole : e.roleLabels.find? fun label => label.text = role with
    | none => rfl
    | some label =>
      have htext : label.text = role := by simpa using List.find?_some hrole
      have hlabel := h.roleLabel e (List.mem_of_find?_eq_some hfind) label
        (List.mem_of_find?_eq_some hrole)
      rw [Option.getD_some, hlabel, htext]

/-- The key of a cell is made of its parts as they stand. -/
theorem key (h : g.PlainlyNamed) (cell : Policy.Cell) : (g.labelled cell.slot).key = cell.key := by
  simp only [Policy.LabelledSlot.key, Graph.labelled, h.labelOf, h.roleLabelOf, Policy.Cell.key,
    Policy.Cell.slot, Name.display_plain]
  cases cell.subjectRole with
  | none => rfl
  | some subjectRole => simp only [Option.map_some, h.roleLabelOf, Name.display_plain]

/-- A plain action is shown over a subject as an action of a query is exactly if it is the same. -/
theorem actionKey_eq_iff (h : g.PlainlyNamed) {other : Name} (hother : other.IsPlain)
    (subject action : String) :
    Policy.actionKey (g.labelOf subject).display other.display = Policy.actionKey subject action ↔
      other.text = action := by
  rw [h.labelOf, Name.display_plain, hother.display]
  exact ⟨Policy.actionKey_inj, congrArg (Policy.actionKey subject)⟩

end Graph.PlainlyNamed

/-- No entity or role has a dash in its name, and no role is called like no role. -/
structure Graph.TellsRoles (g : Graph) : Prop where
  undashed : ∀ e ∈ g.entities, Policy.Undashed e.name
  role_undashed : ∀ e ∈ g.entities, ∀ role ∈ e.roles, Policy.Undashed role
  not_null : ∀ e ∈ g.entities, Policy.noRole ∉ e.roles

theorem Graph.PlainlyNamed.tellsRoles {g : Graph} (h : g.PlainlyNamed)
    (hnull : ∀ e ∈ g.entities, Policy.noRole ∉ e.roles) : g.TellsRoles :=
  ⟨h.undashed, h.role_undashed, hnull⟩

namespace Policy

/-- A role that keys show as it is and that can be told from no role. -/
structure KeyedRole (role : String) : Prop where
  undashed : Undashed role
  named : role ≠ ""
  not_null : role ≠ noRole

/-- Such a role is in a key exactly if it was given. -/
theorem KeyedRole.keyRole_eq_iff {role : String} (h : KeyedRole role) {given : Option String} :
    keyRole given = role ↔ given = some role := by
  cases given with
  | none => simp [keyRole, Ne.symm h.not_null]
  | some other =>
    by_cases hother : other = ""
    · subst hother
      simp [keyRole, Ne.symm h.not_null, Ne.symm h.named]
    · simp [keyRole, hother]

/-- Where roles can be told from keys, every registered one can. -/
theorem keyedRole_of_mem {g : Graph} (hg : g.WellNamed) (htells : g.TellsRoles) {e : Entity}
    (he : e ∈ g.entities) {role : String} (hrole : role ∈ e.roles) : KeyedRole role where
  undashed := htells.role_undashed e he role hrole
  named := (hg.entity e he).role_ne_empty role hrole
  not_null := fun heq => htells.not_null e he (heq ▸ hrole)

/-- No role is in a key exactly if none was given or an empty one, unless what stands for none was
given as a role. -/
theorem keyRole_eq_noRole_iff {given : Option String} (hgiven : given ≠ some noRole) :
    keyRole given = noRole ↔ given.filter (· ≠ "") = none := by
  cases given with
  | none => simp [keyRole]
  | some role =>
    have hrole : role ≠ noRole := fun heq => hgiven (congrArg some heq)
    by_cases hnamed : role = "" <;> simp [keyRole, hnamed, hrole]

/-- Two roles on the subject are alike in keys exactly if they are the same, an empty one counting as
none. -/
theorem keyRole_eq_keyRole_iff {subjectRole given : Option String}
    (hrole : ∀ role, subjectRole = some role → KeyedRole role) (hgiven : given ≠ some noRole) :
    keyRole subjectRole = keyRole given ↔ subjectRole = given.filter (· ≠ "") := by
  cases subjectRole with
  | none =>
    rw [eq_comm, eq_comm (a := none)]
    exact keyRole_eq_noRole_iff hgiven
  | some role =>
    have hkeyed := hrole role rfl
    rw [hkeyed.keyRole_eq_iff.mpr rfl, eq_comm, hkeyed.keyRole_eq_iff, eq_comm (a := some role),
      Option.filter_eq_some_iff]
    simp [hkeyed.named]

/-- Where roles can be told from keys and names hold no dash, the key of a cell is that of its own parts
and of no others. -/
theorem Cell.key_eq_accessKey_iff {cell : Cell} (hcontext : Undashed cell.context)
    (hrole : KeyedRole cell.role) (hsubject : Undashed cell.subject)
    (hsubjectRole : ∀ role, cell.subjectRole = some role → KeyedRole role)
    {context subject : String} {role subjectRole : Option String}
    (hgiven : subjectRole ≠ some noRole) :
    cell.key = accessKey context role subject subjectRole ↔
      role = some cell.role ∧
        cell.slot = ⟨context, cell.role, subject, subjectRole.filter (· ≠ "")⟩ := by
  have hkeyRole : keyRole (some cell.role) = cell.role := hrole.keyRole_eq_iff.mpr rfl
  have hgivenRole : keyRole cell.subjectRole = keyRole subjectRole ↔
      cell.subjectRole = subjectRole.filter (· ≠ "") :=
    keyRole_eq_keyRole_iff hsubjectRole hgiven
  rw [Cell.slot, Slot.mk.injEq]
  constructor
  · intro hkey
    obtain ⟨hcontextEq, hroleEq, hsubjectEq, hsubjectRoleEq⟩ :=
      accessKey_inj hcontext (hkeyRole.symm ▸ hrole.undashed) hsubject
        (undashed_keyRole fun role h => (hsubjectRole role h).undashed) hkey
    rw [hkeyRole] at hroleEq
    exact ⟨hrole.keyRole_eq_iff.mp hroleEq.symm, hcontextEq, rfl, hsubjectEq,
      hgivenRole.mp hsubjectRoleEq⟩
  · intro hparts
    obtain ⟨hroleName, hcontextEq, -, hsubjectEq, hsubjectRoleEq⟩ := hparts
    rw [Cell.key, accessKey, accessKey, hcontextEq, hsubjectEq, hroleName,
      hgivenRole.mpr hsubjectRoleEq]

/-- Where roles can be told from keys, they can in the cells that were compiled before, whose names hold
no dash. -/
theorem Snapshot.keyed_of_mem_cells {g later : Graph} (hwithin : g.Within later)
    (hlater : later.WellNamed) (htells : later.TellsRoles) {round : Round} {cell : Cell}
    (h : cell ∈ (compile g round).cells) :
    Undashed cell.context ∧ KeyedRole cell.role ∧ Undashed cell.subject ∧
      ∀ subjectRole, cell.subjectRole = some subjectRole → KeyedRole subjectRole := by
  obtain ⟨context, hcontext, subject, hsubject, hname, hrole, hsubjectName, hroles⟩ :=
    parts_of_mem_cells hwithin h
  exact ⟨hname ▸ htells.undashed context hcontext, keyedRole_of_mem hlater htells hcontext hrole,
    hsubjectName ▸ htells.undashed subject hsubject,
    fun subjectRole h => keyedRole_of_mem hlater htells hsubject (hroles subjectRole h)⟩

/-- The parts of a cell on plain names hold no dash. -/
theorem Snapshot.undashed_of_mem_cells {g later : Graph} (hwithin : g.Within later)
    (hplain : later.PlainlyNamed) {round : Round} {cell : Cell}
    (h : cell ∈ (compile g round).cells) :
    Undashed cell.context ∧ Undashed cell.role ∧ Undashed cell.subject ∧
      ∀ subjectRole, cell.subjectRole = some subjectRole → Undashed subjectRole := by
  obtain ⟨context, hcontext, subject, hsubject, hname, hrole, hsubjectName, hroles⟩ :=
    parts_of_mem_cells hwithin h
  refine ⟨hname ▸ hplain.undashed context hcontext, hplain.role_undashed context hcontext _ hrole,
    hsubjectName ▸ hplain.undashed subject hsubject, fun subjectRole h => ?_⟩
  exact hplain.role_undashed subject hsubject _ (hroles subjectRole h)

end Policy

end AccessMatrix
