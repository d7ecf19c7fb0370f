import AccessMatrix.Proofs.Memory.Agreement
import AccessMatrix.Proofs.Memory.Relations
import AccessMatrix.Proofs.Session.Moments
import AccessMatrix.Proofs.Session.Registrations

/-!
# Sessions and the entities that graphs share

At every moment of every session its graph is one that a memory of shared entities shows, and what the
session registers next it registers as the memory does. So what holds of registration in memory holds
of sessions: relations agree with the parent links, and a registration is all or nothing. Both are
stated for memories, where graphs may share entities, entities may be renamed and a failure may leave
traces, together with what ties sessions to them.
-/

namespace AccessMatrix

open Memory (Asks Event Means)
open Outcome

namespace Graph

/-- The graphs that come about when entities are registered, and registered ones are made the parents
of registered ones. -/
inductive Arranged : Graph → Prop where
  | empty : Arranged {}
  | register {g g' : Graph} {r : Registration} {e : Entity} (hg : Arranged g)
      (h : g.register r = .ok (g', e)) : Arranged g'
  | assignParents {g : Graph} {name : String} {parents : List String} (hg : Arranged g)
      (hname : name ∈ g.names) (hparents : ∀ parent ∈ parents, parent ∈ g.names) :
      Arranged (g.assignParents name parents)

end Graph

namespace Memory

variable {m : Memory} {graph : Nat} {g : Graph}

/-- A graph that a memory shows answers an attempt as the memory does. A new entity is refused with the
same error, or it is registered and the memory goes on to show the graph. What is registered already or
comes from another graph is refused with the same error and nothing changes. -/
def Answers (m : Memory) (graph : Nat) (g : Graph) : Attempt → Prop
  | .making making => ∀ r, Asks m graph r making →
    let ran := m.attempt graph (.making making)
    (∃ error, g.register r = .error error ∧ ran.1 = .error error ∧ ran.2.Shows graph g) ∨
      ∃ g' new, g.register r = .ok (g', new) ∧ ran.1 = .ok () ∧ ran.2.Shows graph g' ∧
        ran.2.depict m.size = new
  | .again item => ∀ ref, Means m graph ref item →
    m.attempt graph (.again item) = (Session.refuseAgain g ref, m)

theorem Shows.answers (h : m.Shows graph g) (hm : m.Sized) (a : Attempt) : m.Answers graph g a := by
  cases a with
  | making making => exact fun r hasks => h.register_eq hm hasks
  | again item => exact fun ref hmeans => h.registerAgain_eq hmeans

/-- Parents that a view knows are meant by entities that the graph holds and by values. -/
theorem Shows.exists_items (h : m.Shows graph g) {name : Name} {refs : List Ref} {parents : List String}
    (hresolve : g.resolveParents name refs = .ok parents) :
    ∃ items, List.Forall₂ (Means m graph) refs items ∧
      ∀ id ∈ items.filterMap Item.id?, id ∈ m.held graph := by
  induction refs generalizing parents with
  | nil => exact ⟨[], .nil, nofun⟩
  | cons ref rest ih =>
    rw [Graph.resolveParents] at hresolve
    split at hresolve
    · cases hresolve
    · rename_i parent hparent
      obtain ⟨others, hothers, -⟩ := bind_eq_ok.mp hresolve
      obtain ⟨items, hmeans, hheld⟩ := ih hothers
      cases ref with
      | own name =>
        rw [Graph.refersTo, h.find?_eq] at hparent
        obtain ⟨id, hid, -⟩ := Option.map_eq_some_iff.mp hparent
        refine ⟨.entity id :: items, .cons (.own hid) hmeans, List.forall_mem_cons.mpr ⟨?_, hheld⟩⟩
        exact (h.held_of_find? hid).1
      | foreign name => cases hparent
      | value v => exact ⟨.value v :: items, .cons (.value v) hmeans, hheld⟩

/-- What is registered in a view can be asked of the memory, of entities that the graph holds. -/
theorem Shows.exists_asks (h : m.Shows graph g) {g' : Graph} {r : Registration} {new : Entity}
    (hregister : g.register r = .ok (g', new)) :
    ∃ making, Asks m graph r making ∧
      ∀ id ∈ (Event.attempt graph (.making making)).ids, id ∈ m.held graph := by
  obtain ⟨d, ancestors, hdraft, -⟩ := Graph.register_cases hregister
  obtain ⟨roles, refs, -, -, hrefs, -, -, -, hresolve, -⟩ := Graph.draft_cases hdraft
  obtain ⟨kind, name, givenRoles, parents⟩ := r
  cases parents with
  | each listed =>
    obtain rfl := Except.ok.inj hrefs
    obtain ⟨items, hmeans, hheld⟩ := h.exists_items hresolve
    exact ⟨⟨kind, name, givenRoles, .inl items⟩, ⟨rfl, rfl, rfl, .each hmeans⟩, hheld⟩
  | among v => exact ⟨⟨kind, name, givenRoles, .inr v⟩, ⟨rfl, rfl, rfl, .among v⟩, nofun⟩

/-- A run of events and one event more. -/
theorem afterAll_concat (m : Memory) (events : List Event) (event : Event) :
    m.afterAll (events ++ [event]) = (m.afterAll events).after event := by
  rw [afterAll, List.foldl_append]
  rfl

/-- An event about entities that the graph holds takes place. -/
theorem all_knows {ids : List Nat} (h : ∀ id ∈ ids, id ∈ m.held graph) : ids.all m.knows = true :=
  List.all_eq_true.mpr fun id hid => knows_iff.mpr ⟨graph, mem_held.mp (h id hid)⟩

/-- What is registered in a view is registered in the memory by an attempt. -/
theorem Shows.after_register (h : m.Shows graph g) (hm : m.Sized) {g' : Graph} {r : Registration}
    {new : Entity} (hregister : g.register r = .ok (g', new)) :
    ∃ a, (m.after (.attempt graph a)).Shows graph g' := by
  obtain ⟨making, hasks, hheld⟩ := h.exists_asks hregister
  refine ⟨.making making, ?_⟩
  rw [after, if_pos (all_knows hheld)]
  rcases h.register_eq hm hasks with ⟨error, herror, -⟩ | ⟨later, other, hok, -, hshown, -⟩
  · rw [hregister] at herror
    cases herror
  · rw [hregister] at hok
    obtain ⟨rfl, -⟩ := Prod.mk.inj (Except.ok.inj hok)
    exact hshown

theorem Shows.names_eq (h : m.Shows graph g) : g.names = (m.held graph).map m.nameOf := by
  rw [Graph.names, h.entities, List.map_map]
  rfl

/-- Parents that are reassigned in a view are reassigned in the memory. -/
theorem Shows.after_assignParents (h : m.Shows graph g) {name : String} {parents : List String}
    (hname : name ∈ g.names) (hparents : ∀ parent ∈ parents, parent ∈ g.names) :
    ∃ event, event.isOrdinary = true ∧
      (m.after event).Shows graph (g.assignParents name parents) := by
  rw [h.names_eq] at hname hparents
  obtain ⟨id, hid, rfl⟩ := List.mem_map.mp hname
  have hfound (parent : String) (hparent : parent ∈ parents) :
      (m.find? graph parent).getD 0 ∈ m.held graph ∧
        m.nameOf ((m.find? graph parent).getD 0) = parent := by
    obtain ⟨other, hother, rfl⟩ := List.mem_map.mp (hparents parent hparent)
    rw [h.find?_nameOf hother]
    exact ⟨hother, rfl⟩
  obtain ⟨ids, hids, rfl⟩ : ∃ ids : List Nat, (∀ other ∈ ids, other ∈ m.held graph) ∧
      parents = ids.map m.nameOf := by
    refine ⟨parents.map fun parent => (m.find? graph parent).getD 0, ?_, ?_⟩
    · exact List.forall_mem_map.mpr fun parent hparent => (hfound parent hparent).1
    · rw [List.map_map]
      exact ((List.map_congr_left fun parent hparent => (hfound parent hparent).2).trans
        (List.map_id _)).symm
  refine ⟨.assignParents id (ids.map .entity), ?_, ?_⟩
  · simp [Event.isOrdinary, Item.isNull]
  · have hevent : ∀ other ∈ (Event.assignParents id (ids.map .entity)).ids, other ∈ m.held graph := by
      refine List.forall_mem_cons.mpr ⟨hid, ?_⟩
      rw [List.filterMap_map]
      simpa [Item.id?] using hids
    rw [after, if_pos (all_knows hevent)]
    exact h.assignParents_eq hid hids

theorem shows_empty : Shows {} 0 {} :=
  ⟨rfl, nofun, List.nodup_nil, nofun, nofun⟩

/-- A graph made by registration is shown by a memory in which attempts at registrations were made. -/
theorem exists_of_registered (hg : g.Registered) :
    ∃ events, (∀ event ∈ events, event.isAttempt = true) ∧
      (({} : Memory).afterAll events).Shows 0 g := by
  induction hg with
  | empty => exact ⟨[], nofun, shows_empty⟩
  | register _ hregister ih =>
    obtain ⟨events, hevents, hshown⟩ := ih
    obtain ⟨a, ha⟩ := hshown.after_register (sized_afterAll events) hregister
    refine ⟨events ++ [.attempt 0 a], List.forall_mem_append.mpr ⟨hevents, ?_⟩, ?_⟩
    · exact List.forall_mem_singleton.mpr rfl
    · rwa [afterAll_concat]

/-- A graph in which parents were reassigned besides is shown by a memory in which they were. -/
theorem exists_of_arranged (hg : g.Arranged) :
    ∃ events, (∀ event ∈ events, event.isOrdinary = true) ∧
      (({} : Memory).afterAll events).Shows 0 g := by
  induction hg with
  | empty => exact ⟨[], nofun, shows_empty⟩
  | register _ hregister ih =>
    obtain ⟨events, hevents, hshown⟩ := ih
    obtain ⟨a, ha⟩ := hshown.after_register (sized_afterAll events) hregister
    refine ⟨events ++ [.attempt 0 a], List.forall_mem_append.mpr ⟨hevents, ?_⟩, ?_⟩
    · exact List.forall_mem_singleton.mpr rfl
    · rwa [afterAll_concat]
  | assignParents _ hname hparents ih =>
    obtain ⟨events, hevents, hshown⟩ := ih
    obtain ⟨event, hevent, hlater⟩ := hshown.after_assignParents hname hparents
    refine ⟨events ++ [event], List.forall_mem_append.mpr ⟨hevents, ?_⟩, ?_⟩
    · exact List.forall_mem_singleton.mpr hevent
    · rwa [afterAll_concat]

end Memory

namespace Session

/-- A name that is required is registered. -/
theorem mem_names_of_requireNamed {g : Graph} {name : Value} {e : Entity}
    (h : requireNamed g name = .ok e) : e.name ∈ g.names := by
  rw [requireNamed, Graph.require] at h
  obtain ⟨_, -, h⟩ := bind_eq_ok.mp h
  split at h
  · rename_i found hfound
    obtain rfl := pure_eq_ok.mp h
    obtain ⟨text, -, hfind⟩ := Option.bind_eq_some_iff.mp hfound
    exact Graph.mem_names.mpr ⟨found, List.mem_of_find?_eq_some hfind, rfl⟩
  · exact absurd h throw_ne_ok

/-- Names that are required are registered. -/
theorem mem_names_of_requireAll {g : Graph} {names : Value} {found : List Entity}
    (h : requireAll g names = .ok found) : ∀ name ∈ found.map Entity.name, name ∈ g.names := by
  obtain ⟨items, -, h⟩ := bind_eq_ok.mp h
  refine List.forall_mem_map.mpr fun e he => ?_
  obtain ⟨name, -, hname⟩ := exists_of_mem_mapM h e he
  exact mem_names_of_requireNamed hname

/-- Calling a setter leaves the graph as it is. -/
theorem graph_callSetter {s next : Session} {setter : Policy.Setter} {value? : Option Value}
    {named : Value} (h : s.callSetter setter value? named = .ok next) :
    next.engine.graph = s.engine.graph := by
  obtain ⟨outcome, -, rfl⟩ := map_eq_ok.mp h
  rfl

/-- What a step does once its references have been looked up leads to a graph that registrations and
reassignments lead to. -/
theorem Step.arranged_perform (step : Step) {s : Session} (hs : s.engine.graph.Arranged) :
    (step.perform s).2.engine.graph.Arranged := by
  have hgraph : (step.perform s).2.engine.graph = (s.world.replay (step.performOps s)).graph :=
    congrArg World.graph (step.world_perform s)
  cases step with
  | register r =>
    refine of_whole (motive := fun t => t.engine.graph.Arranged) hs fun h => ?_
    obtain ⟨⟨e, registered⟩, hregister, h⟩ := map_eq_ok.mp h
    obtain ⟨⟨g, e⟩, hgraph, hregister⟩ := map_eq_ok.mp hregister
    cases hregister
    cases h
    exact hs.register hgraph
  | assignParents name parents =>
    refine of_whole (motive := fun t => t.engine.graph.Arranged) hs fun h => ?_
    obtain ⟨e, he, h⟩ := bind_eq_ok.mp h
    obtain ⟨found, hfound, h⟩ := bind_eq_ok.mp h
    cases h
    exact hs.assignParents (mem_names_of_requireNamed he) (mem_names_of_requireAll hfound)
  | callKept label given =>
    refine of_whole (motive := fun t => t.engine.graph.Arranged) hs fun h => ?_
    obtain ⟨next, hcalled, h⟩ := map_eq_ok.mp h
    cases h
    obtain ⟨setter, -, hcalled⟩ := bind_eq_ok.mp hcalled
    obtain ⟨arguments, -, hcalled⟩ := bind_eq_ok.mp hcalled
    rw [graph_callSetter hcalled]
    exact hs
  | declare r =>
    refine of_whole (motive := fun t => t.engine.graph.Arranged) hs fun h => ?_
    obtain ⟨d, -, h⟩ := map_eq_ok.mp h
    cases h
    exact hs
  | _ =>
    rw [hgraph]
    exact hs

/-- Whatever a session leads to, its graph is one that registrations and reassignments lead to. -/
theorem LeadsTo.arranged {s t : Session} (h : LeadsTo s t) (hs : s.engine.graph.Arranged) :
    t.engine.graph.Arranged := by
  induction h with
  | refl s => exact hs
  | trans _ _ ih ih' => exact ih' (ih hs)
  | step step s =>
    have hmention : (s.mentionAll step.mentions).2.engine.graph = s.engine.graph :=
      congrArg World.graph (world_mentionAll s _)
    rw [Step.run]
    generalize s.mentionAll step.mentions = mentioned at hmention ⊢
    obtain ⟨_ | ⟨⟩, next⟩ := mentioned
    · exact hmention ▸ hs
    · exact step.arranged_perform (hmention ▸ hs)
  | visit s => exact hs
  | @set call s t context role form keep? given _ h =>
    obtain ⟨setter, -, hnext⟩ := Call.set_ok h
    cases keep? with
    | some label =>
      dsimp only at hnext
      rw [hnext]
      exact hs
    | none =>
      obtain ⟨arguments, -, hnext⟩ := bind_eq_ok.mp hnext
      rw [graph_callSetter hnext]
      exact hs
  | staged _ ih => exact ih hs
  | configured _ ih => exact ih hs

/-- A hall in one graph that another one takes in, with a lobby below it in each, after attempts that
fail: the hall stands in the graph already, a parent is unknown there, and a name is taken. -/
def hallEvents : List Memory.Event :=
  [.attempt 0 (.making { kind := .product, name := .text "hall" }),
    .attempt 0 (.again (.entity 0)),
    .attempt 0 (.making { kind := .context, name := .text "lobby", roles := .ofTexts ["guest"],
                          parents := .inl [.entity 0, .value (.text "hall"), .entity 0] }),
    .attempt 1 (.again (.entity 1)),
    .attempt 1 (.again (.entity 0)),
    .attempt 1 (.making { kind := .plain, name := .text "lobby", parents := .inl [.entity 0] }),
    .attempt 1 (.making { kind := .product, name := .text "hall" })]

/-- A box that stands in two graphs and became its own parent, and a lid in one of them that has the box
for a parent twice. -/
def knotEvents : List Memory.Event :=
  [.attempt 0 (.making { kind := .product, name := .text "box" }),
    .attempt 1 (.again (.entity 0)),
    .attempt 0 (.making { kind := .product, name := .text "lid", parents := .inl [.entity 0] }),
    .assignParents 0 [.entity 0],
    .assignParents 1 [.entity 0, .entity 0]]

end Session

end AccessMatrix
