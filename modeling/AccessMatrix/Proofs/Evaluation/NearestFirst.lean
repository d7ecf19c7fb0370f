import AccessMatrix.Proofs.Evaluation.Chain
import AccessMatrix.Proofs.Graph.RegistrationOrder
import AccessMatrix.Proofs.Graph.Ways
import Mathlib.Order.Bounds.Defs

/-!
# Nearest first

A resolution visits the contexts above its subject in the order in which the subject lists its
ancestors, by falling level. A level is stored once, one more than the highest of the parents', and no
way up to a root is longer than it says. So it falls from an entity to whatever is above it, however far
apart the parents' levels are, and the list extends the order of ancestry: on the way nothing is visited
before what stands below it.
-/

namespace AccessMatrix

namespace Graph

variable {g : Graph}

/-- The level of an entity is the number of entities on its longest way up to a root, and it lists its
ancestors, each once, by falling level, by name within a level, and below what is above them. -/
structure Layered (g : Graph) (e : Entity) : Prop where
  level : IsGreatest {n | ∃ way, RootWay g.parentsOf e.name way ∧ (e.name :: way).length = n} e.level
  nodup : e.nearestFirst.Nodup
  mem_iff : ∀ name, name ∈ e.nearestFirst ↔ g.Above e.name name
  sorted : e.nearestFirst.Pairwise g.Nearer
  extends_above : ∀ a b, g.Above e.name a → g.Above e.name b → g.Above a b →
    [a, b].Sublist e.nearestFirst

/-- What is above an entity has a lower level. -/
theorem Registered.levelOf_lt_of_above (h : g.Registered) {name other : String}
    (habove : g.Above name other) : g.levelOf other < g.levelOf name := by
  induction habove with
  | single hlink => exact h.levelOf_lt hlink
  | tail _ hlink ih => exact Nat.lt_trans (h.levelOf_lt hlink) ih

/-- In a list in order, of two of its elements that one comes first which the other one may not come
before. -/
theorem pair_sublist_of_pairwise {α : Type} {R : α → α → Prop} {l : List α} (hl : l.Pairwise R)
    {a b : α} (ha : a ∈ l) (hb : b ∈ l) (hne : b ≠ a) (hR : ¬ R b a) : [a, b].Sublist l := by
  obtain ⟨before, after, rfl⟩ := List.append_of_mem ha
  rcases List.mem_append.mp hb with hb | hb
  · exact absurd ((List.pairwise_append.mp hl).2.2 b hb a List.mem_cons_self) hR
  · have hafter := (List.mem_cons.mp hb).resolve_left hne
    exact ((List.singleton_sublist.mpr hafter).cons_cons a).trans (List.sublist_append_right _ _)

/-- In a graph made by registration entities are layered. -/
theorem Registered.layered (h : g.Registered) {e : Entity} (he : e ∈ g.entities) : g.Layered e := by
  have hmem (name : String) : name ∈ e.nearestFirst ↔ g.Above e.name name := by
    rw [(h.related e he).mem_nearestFirst, h.mem_ancestors_iff he]
  have hsorted := (h.derived e he).sorted
  refine ⟨⟨h.exists_longest_way he, ?_⟩, (h.ranked e he).nodup, hmem, hsorted,
    fun a b ha hb hab => ?_⟩
  · rintro n ⟨way, hway, rfl⟩
    exact h.length_lt_level he hway
  · have hlevel := h.levelOf_lt_of_above hab
    refine pair_sublist_of_pairwise hsorted ((hmem a).mpr ha) ((hmem b).mpr hb) ?_ ?_
    · rintro rfl
      exact Nat.lt_irrefl _ hlevel
    · rintro (hhigher | ⟨hsame, -⟩) <;> omega

end Graph

namespace Evaluation

variable {g : Graph}

/-- The memberships that are found on the way are on the contexts visited, in the order of the visits. -/
theorem chainFrom_sublist (memberships : List Membership)
    (given known : Table String (Option String)) (contexts : List String) :
    ((chainFrom memberships given known contexts).map Membership.contextName).Sublist contexts := by
  induction contexts generalizing known with
  | nil => exact List.Sublist.slnil
  | cons context rest ih =>
    rw [chainFrom_cons, List.map_append]
    generalize hfound : ((knownKey given context).or (knownKey known context)).bind
      (Membership.lastOn memberships context) = found
    cases found with
    | none => exact (ih known).cons context
    | some m =>
      obtain ⟨key, -, hlast⟩ := Option.bind_eq_some_iff.mp hfound
      obtain ⟨-, rfl, -⟩ := Membership.mem_of_lastOn hlast
      exact (ih _).cons_cons m.contextName

/-- A resolution visits nearest first. The level of a registered entity is that of its longest way up,
and its ancestors are listed so that none comes before what is below it. A resolution for the entity,
whatever the memberships and keys, visits the contexts among them in this order, none before another
one that it stands above, and finds memberships in the order of the visits. -/
theorem visits_nearest_first (h : g.Registered) {e : Entity} (he : e ∈ g.entities) :
    let visited := (Policy.Round.contextsAbove g e.name).map Entity.name
    g.Layered e ∧ visited.Nodup ∧
      (∀ name, name ∈ visited ↔ g.hasContext name = true ∧ g.Above e.name name) ∧
      visited.Pairwise (fun first later => ¬ g.Above later first) ∧
      ∀ input : Input, input.subject.name = e.name →
        ((resolve g input).chain.map Membership.contextName).Sublist visited := by
  intro visited
  have hlayered := h.layered he
  have hvisited : visited = e.nearestFirst.filter g.hasContext := by
    refine (contextsAbove_eq g e.name).trans ?_
    rw [Graph.nearestOf, h.find?_name he]
    rfl
  refine ⟨hlayered, ?_, fun name => ?_, ?_, fun input hsubject => ?_⟩
  · rw [hvisited]
    exact hlayered.nodup.filter _
  · rw [hvisited, List.mem_filter, hlayered.mem_iff, and_comm]
  · rw [hvisited]
    refine (hlayered.sorted.filter _).imp fun {first later} hnearer habove => ?_
    have hlevel := h.levelOf_lt_of_above habove
    rcases hnearer with hhigher | ⟨hsame, -⟩ <;> omega
  · change (List.map _ _).Sublist ((Policy.Round.contextsAbove g e.name).map Entity.name)
    rw [← hsubject]
    exact chainFrom_sublist input.memberships input.subject.ancestors [] _

/-- A desk that an organization runs itself, and also a team in one of its divisions. -/
def sharedDeskRegistrations : List Registration :=
  [{ kind := .context, name := .text "org" },
    { kind := .context, name := .text "division", parents := .each [.own "org"] },
    { kind := .context, name := .text "team", parents := .each [.own "division"] },
    { kind := .product, name := .text "desk", parents := .each [.own "org", .own "team"] }]

/-- The desk stands below the team and everything above it, so the organization, though a parent of the
desk, is visited last. -/
theorem visits_nearest_first_desk :
    let g := (Graph.registerAll {} sharedDeskRegistrations).getD {}
    Graph.registerAll {} sharedDeskRegistrations = some g ∧
      ∃ desk ∈ g.entities, desk.parents = ["org", "team"] ∧
        (∀ way, Graph.RootWay g.parentsOf "desk" way → way.length < 4) ∧
        ["team", "org"].Sublist desk.nearestFirst ∧
        ∀ input : Input, input.subject.name = "desk" →
          ((resolve g input).chain.map Membership.contextName).Sublist ["team", "division", "org"] := by
  intro g
  have hg : Graph.registerAll {} sharedDeskRegistrations = some g :=
    (Option.getD_of_ne_none (by decide +kernel) _).symm
  have hregistered : g.Registered := Graph.Registered.empty.registerAll hg
  have hstored : ∃ e ∈ g.entities, e.name = "desk" ∧ e.parents = ["org", "team"] ∧ e.level = 4 ∧
      e.ancestors.Perm ["team", "division", "org"] := by
    decide +kernel
  obtain ⟨desk, hdesk, hname, hparents, hlevel, hancestors⟩ := hstored
  have hnearest : g.nearestOf desk.name = ["team", "division", "org"] :=
    hregistered.nearestOf_eq hdesk (by decide) (fun _ => hancestors.symm.mem_iff) (by decide +kernel)
  have hcontexts : (Policy.Round.contextsAbove g desk.name).map Entity.name =
      ["team", "division", "org"] := by
    rw [contextsAbove_eq, hnearest]
    decide +kernel
  obtain ⟨hlayered, -, hvisited, -, hfound⟩ := visits_nearest_first hregistered hdesk
  rw [hcontexts, hname] at hfound
  refine ⟨hg, desk, hdesk, hparents, fun way hway => ?_, ?_, hfound⟩
  · rw [← hlevel]
    exact hlayered.level.2 ⟨way, hname ▸ hway, rfl⟩
  · have habove (name : String) (hname : name ∈ ["team", "division", "org"]) :
        g.Above desk.name name :=
      ((hvisited name).mp (hcontexts ▸ hname)).2
    refine hlayered.extends_above "team" "org" (habove _ (by simp)) (habove _ (by simp)) ?_
    obtain ⟨team, hteam, hname, horg⟩ : ∃ e ∈ g.entities, e.name = "team" ∧ "org" ∈ e.ancestors := by
      decide +kernel
    rw [← hname]
    exact (hregistered.mem_ancestors_iff hteam "org").mp horg

end Evaluation

end AccessMatrix
