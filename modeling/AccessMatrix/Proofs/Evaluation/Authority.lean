import AccessMatrix.Proofs.Evaluation.ActorPolicies
import AccessMatrix.Proofs.Evaluation.Resolved
import AccessMatrix.Proofs.Session.Growth

/-!
# Authority over a subject

Authority comes from above. A context has no cell over an entity that it stands below, whatever was
declared about the two. And the memberships that count for a subject are on its own instance or on
contexts that it reaches by parent links, so the holder of none of these is refused every action.
-/

namespace AccessMatrix

/-- No cell of a compilation is over an entity that its context stands below. -/
theorem Policy.Snapshot.not_above_of_mem_cells {g : Graph} (hg : g.Registered) {round : Round}
    {cell : Cell} (h : cell ∈ (compile g round).cells) : ¬ g.Above cell.context cell.subject := by
  obtain ⟨context, hcontext, subject, hsubject, hname, -, hsubjectName, -, hdescendants, -⟩ :=
    inMatrix_of_mem_cells h
  have hcontext : context ∈ g.entities := (List.mem_filter.mp hcontext).1
  change context.name = cell.context at hname
  change subject.name = cell.subject at hsubjectName
  change cell.context ∉ subject.descendants at hdescendants
  rwa [← hname, hg.consistent.mem_descendants subject hsubject context hcontext,
    hg.consistent.mem_ancestors context hcontext subject hsubject, hname, hsubjectName]
    at hdescendants

namespace Evaluation

/-- A membership is on the instance of a subject itself or on a context that the subject reaches by
parent links. -/
def HasSay (g : Graph) (subject : Subject) (m : Membership) : Prop :=
  m.isOn subject.name subject.key = true ∨
    g.hasContext m.contextName = true ∧ g.Above subject.name m.contextName

variable {g : Graph}

/-- The stored ancestors of a name are what it reaches by parent links. -/
theorem mem_ancestorsOf_iff (hg : g.Registered) {name : String} {e : Entity} (he : e ∈ g.entities) :
    e.name ∈ Policy.ancestorsOf g name ↔ g.Above name e.name := by
  rw [Policy.ancestorsOf]
  cases hname : g.find? name with
  | none =>
    apply iff_of_false List.not_mem_nil
    intro habove
    have hregistered := Graph.find?_isSome_iff.mpr (Graph.mem_names_of_above habove)
    simp [hname] at hregistered
  | some found =>
    obtain ⟨hfound, rfl⟩ := (Graph.find?_eq_some_iff hg.wellNamed.names_nodup).mp hname
    exact hg.consistent.mem_ancestors found hfound e he

/-- The contexts that a resolution goes through are those that a name reaches by parent links. -/
theorem mem_contextsAbove_iff (hg : g.Registered) {name context : String} :
    context ∈ (Policy.Round.contextsAbove g name).map Entity.name ↔
      g.hasContext context = true ∧ g.Above name context := by
  have hnames := hg.wellNamed.names_nodup
  constructor
  · intro h
    obtain ⟨e, he, rfl⟩ := List.mem_map.mp h
    obtain ⟨hcontext, hancestor⟩ := (Policy.Round.mem_contextsAbove hg).mp he
    obtain ⟨hmem, hcontext⟩ := List.mem_filter.mp hcontext
    exact ⟨(Graph.hasContext_name hnames hmem).trans hcontext,
      (mem_ancestorsOf_iff hg hmem).mp hancestor⟩
  · intro h
    obtain ⟨hcontext, habove⟩ := h
    obtain ⟨e, he, rfl⟩ := Graph.mem_names.mp (hg.consistent.above_mem habove)
    rw [Graph.hasContext_name hnames he] at hcontext
    apply List.mem_map_of_mem
    rw [Policy.Round.mem_contextsAbove hg]
    exact ⟨List.mem_filter.mpr ⟨he, hcontext⟩, (mem_ancestorsOf_iff hg he).mpr habove⟩

/-- What counts for a subject was given and has a say there. -/
theorem hasSay_of_mem_held (hg : g.Registered) {input : Input} {m : Membership}
    (h : m ∈ (resolve g input).held) : m ∈ input.memberships ∧ HasSay g input.subject m := by
  refine ⟨(Membership.mem_of_lastOn (lastOn_of_mem_held h)).1, ?_⟩
  rcases List.mem_append.mp h with hdirect | hchain
  · have hlast := Membership.mem_of_lastOn (Option.mem_toList.mp hdirect)
    exact .inl (Membership.isOn_iff.mpr hlast.2)
  · exact .inr ((mem_contextsAbove_iff hg).mp (mem_of_mem_chainFrom hchain).1)

/-- Without memberships that count there are no keys to look up. -/
theorem keys_of_held_eq_nil {input : Input} (h : (resolve g input).held = []) :
    (resolve g input).accessKeys = [] ∧ (resolve g input).controllerKeys = [] := by
  have haccess : (resolve g input).accessKeys =
      ((resolve g input).held.map (resolve g input).keyOf).eraseDups := rfl
  have hcontroller : (resolve g input).controllerKeys =
      ((controllersOf g input.subject.name).flatMap fun controller =>
        (resolve g input).held.map fun m => Policy.accessKey m.contextName m.roleName
          (g.labelOf controller).display none).eraseDups := rfl
  rw [haccess, hcontroller, h, List.flatMap_eq_nil_iff.mpr fun _ _ => List.map_nil]
  exact ⟨rfl, rfl⟩

/-- Where no membership has a say, no key is looked up. -/
theorem keys_of_no_say (hg : g.Registered) {input : Input}
    (h : ∀ m ∈ input.memberships, ¬ HasSay g input.subject m) :
    (resolve g input).accessKeys = [] ∧ (resolve g input).controllerKeys = [] := by
  apply keys_of_held_eq_nil
  rw [List.eq_nil_iff_forall_not_mem]
  intro m hm
  obtain ⟨hgiven, hsay⟩ := hasSay_of_mem_held hg hm
  exact h m hgiven hsay

/-- Without keys to look up, no action is allowed. -/
theorem decide_of_no_keys {s : Policy.Snapshot} {r : Resolution} (h : r.accessKeys = [])
    (action : Name) : (decide s r action).allowed = false := by
  rw [← Bool.not_eq_true, decide_allowed_iff, h]
  simp

/-- Without keys to look up, nothing is listed as allowed. -/
theorem actorPolicies_of_no_keys {s : Policy.Snapshot} (hs : (s.actions.map Name.text).Nodup)
    {r : Resolution} (haccess : r.accessKeys = []) (hcontroller : r.controllerKeys = []) :
    ∀ entry ∈ actorPolicies g s r, entry.2 = false := by
  have hnone (keys : List String) : keys.any ([] : List String).contains = false := by
    simp [List.any_eq_false]
  have hown : actorPolicies g s r =
      s.actions.map fun action => (action.text, (decide s r action).allowed) := by
    rw [actorPolicies, ofPairs_decisions hs, hcontroller]
    simp only [hnone, List.filter_false, List.map_nil]
    rw [List.flatMap_eq_nil_iff.mpr fun _ _ => rfl, List.foldl_nil]
  rw [hown, List.forall_mem_map]
  intro action _
  exact decide_of_no_keys haccess action

/-- No authority comes from below or from outside. Let a session begin without entities and
declarations and reassign no parents, whatever else is done in it. Then no published cell has a
context that stands below its subject. And whoever asks about a subject without a membership on the
subject's instance or on a context that the subject reaches by parent links is refused every action,
and finds none listed as allowed. -/
theorem no_authority_from_below_or_outside {s : Session} (hnew : s.world = {})
    {commands : List Session.Command}
    (hops : ∀ op ∈ s.opsOf commands, op.reassigns = false) :
    let e := (s.after commands).engine
    (∀ cell ∈ e.compiler.published.cells, ¬ e.graph.Above cell.context cell.subject) ∧
    ∀ memberships subject input, readInput e memberships subject = .ok input →
      (∀ m ∈ input.memberships, ¬ HasSay e.graph input.subject m) →
      (∀ action, (isAllowed e memberships action subject).value = false) ∧
      ∀ entry ∈ (getActorPolicies e memberships subject).value, entry.2 = false := by
  intro e
  have hgrown : (s.after commands).world.Grown := Session.grown_after hnew hops
  have hreached : (s.after commands).world.Reached := by
    refine ⟨s.opsOf commands, ?_⟩
    rw [← hnew]
    exact Session.runs_opsOf s commands
  constructor
  · intro cell hcell
    obtain ⟨g, round, hg, hlater, hpublished⟩ := hgrown.published
    change e.compiler.published = .compile g round at hpublished
    rw [hpublished] at hcell
    obtain ⟨context, hcontext, -, -, hname, -, -⟩ :=
      Policy.Snapshot.parts_of_mem_cells (.refl g) hcell
    have hregistered : cell.context ∈ g.names := hname ▸ List.mem_map_of_mem hcontext
    have habove : e.graph.Above cell.context cell.subject ↔ g.Above cell.context cell.subject :=
      hlater.above_iff hg hregistered
    rw [habove]
    exact Policy.Snapshot.not_above_of_mem_cells hg hcell
  · intro memberships subject input hread hsay
    obtain ⟨haccess, hcontroller⟩ := keys_of_no_say hgrown.registered hsay
    have hquery : (query e memberships subject).value = some (resolve e.graph input) := by
      simp only [query, hread]
    constructor
    · intro action
      cases haction : Name.ofValue? action with
      | none => simp only [isAllowed, explain, hquery, haction]
      | some name =>
        simp only [isAllowed, explain, hquery, haction]
        exact decide_of_no_keys haccess name
    · simp only [getActorPolicies, hquery, Option.map_some, Option.getD_some]
      exact actorPolicies_of_no_keys (nodup_actions_published hreached) haccess hcontroller

open Session (Command)

/-- An organization above a course, each with a declaration about the other. -/
def mutualCommands : List Command :=
  [.step (.register { kind := .context, name := .text "org", roles := .ofTexts ["admin"] }),
    .step (.register { kind := .context, name := .text "course", roles := .ofTexts ["staff"],
                       parents := .each [.own "org"] }),
    .step (.declare { context := .own "course", role := .text "staff", subject := .own "org",
                      actions := .mapping [(.text "close", .bool true)] }),
    .step (.declare { context := .own "org", role := .text "admin", subject := .own "course",
                      actions := .mapping [(.text "close", .bool true)] }),
    .step .build]

/-- What the staff of a course that is in an organization asks about the organization. -/
def staffInput : Input where
  memberships := [⟨"course", "c1", some "staff", [("org", some "o1")]⟩]
  subject := ⟨"org", "o1", []⟩

/-- The organization closes the course and the course does not close the organization, although both
were declared. -/
theorem no_authority_mutual :
    let e := (({} : Session).after mutualCommands).engine
    let memberships := Value.list (staffInput.memberships.map (Membership.toValue .names))
    (∃ cell ∈ e.compiler.published.cells, cell.context = "org" ∧ cell.subject = "course" ∧
        cell.actions.get? "close" = some true) ∧
      (∀ cell ∈ e.compiler.published.cells, cell.context = "course" → cell.subject ≠ "org") ∧
      (isAllowed e memberships (.text "close") staffInput.subject.toValue).value = false := by
  intro e memberships
  have hops : ∀ op ∈ ({} : Session).opsOf mutualCommands, op.reassigns = false := by
    decide +kernel
  obtain ⟨hbelow, hsilent⟩ := no_authority_from_below_or_outside rfl hops
  have hlink : Graph.Link e.graph.parentsOf "course" "org" := by
    change "org" ∈ e.graph.parentsOf "course"
    decide +kernel
  have hparents : e.graph.parentsOf "org" = [] := by decide +kernel
  refine ⟨by decide +kernel, ?_, ?_⟩
  · intro cell hcell hcontext hsubject
    have habove := hbelow cell hcell
    rw [hcontext, hsubject] at habove
    exact habove (.single hlink)
  · have hsay : ∀ m ∈ staffInput.memberships, ¬ HasSay e.graph staffInput.subject m := by
      intro m hm hsay
      rcases hsay with hdirect | ⟨-, habove⟩
      · obtain rfl := List.mem_singleton.mp hm
        simp [Membership.isOn, staffInput] at hdirect
      · obtain ⟨parent, hparent, -⟩ := Relation.TransGen.head'_iff.mp habove
        change parent ∈ e.graph.parentsOf "org" at hparent
        simp [hparents] at hparent
    obtain ⟨hrefused, -⟩ := hsilent memberships staffInput.subject.toValue staffInput rfl hsay
    exact hrefused (.text "close")

end Evaluation

end AccessMatrix
