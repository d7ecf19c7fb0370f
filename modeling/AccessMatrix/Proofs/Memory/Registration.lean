import AccessMatrix.Proofs.Memory.Attempts

/-!
# Registration is all or nothing

In every state that entities and graphs can come to, also where parents were reassigned and there are
cycles, an attempt at a registration ends. If it fails, graphs hold what they held and every entity is
as it was but the one that the attempt is about; that one is as it was, too, unless its name is free in
the graph, and then its parents are as they were but for repeats. If it succeeds, the graph holds the
entity last, and the other entities are as they were but for its place in the sets that lead down.

Two things that nobody has to do show the limits of this. An entity that was given another name may be
handed to the graph again that holds it. And where a null was put among the parents of an entity,
telling the contexts above it fails when the graph holds the new entity already.
-/

namespace AccessMatrix

namespace Memory

open AccessMatrix.Graph (Link Ends)
open Outcome
open Relation (ReflTransGen TransGen)

variable {m : Memory}

/-- No object was made beyond the size of a memory, and graphs hold only what was made. -/
structure Sized (m : Memory) : Prop where
  within : m.Within (List.range m.size)
  held : ∀ entry ∈ m.entries, entry.id < m.size

/-- Graphs hold entities under the names that they have, and what stands among the parents of an entity
is no null, and if it is an entity it is held by a graph. -/
structure Sound (m : Memory) : Prop where
  named : ∀ entry ∈ m.entries, (m.object entry.id).name = entry.name
  full : ∀ id, m.knows id = true → ∀ item ∈ (m.object id).parents,
    item.isNull = false ∧ ∀ parent, item = .entity parent → m.knows parent = true

theorem Within.mono {names more : List Nat} (h : m.Within names) (hmore : names ⊆ more) :
    m.Within more :=
  fun id hid => h id fun hmem => hid (hmore hmem)

theorem Sized.lt_of_knows (hm : m.Sized) {id : Nat} (h : m.knows id = true) : id < m.size := by
  obtain ⟨graph, hholds⟩ := knows_iff.mp h
  obtain ⟨name, hentry⟩ := holds_iff.mp hholds
  exact hm.held _ hentry

theorem Sized.make (hm : m.Sized) (o : Object) : (m.make o).Sized := by
  refine ⟨fun id hid => ?_, fun entry hentry => Nat.lt_succ_of_lt (hm.held entry hentry)⟩
  have hid : ¬ id < m.size + 1 := fun hlt => hid (List.mem_range.mpr hlt)
  have hne : id ≠ m.size := by omega
  have hobject : (m.make o).object id = m.object id := if_neg hne
  rw [hobject]
  exact hm.within id fun hmem => hid (Nat.lt_succ_of_lt (List.mem_range.mp hmem))

/-- Changing an entity that was made leaves nothing beyond the size. -/
theorem Sized.of_others (hm : m.Sized) {later : Memory} {id : Nat} (hid : id < m.size)
    (hsize : later.size = m.size)
    (hothers : ∀ other ≠ id, (later.object other).kind = (m.object other).kind ∧
      (later.object other).parents = (m.object other).parents)
    (hentries : ∀ entry ∈ later.entries, entry ∈ m.entries ∨ entry.id = id) : later.Sized := by
  refine ⟨fun other hother => ?_, fun entry hentry => ?_⟩
  · rw [hsize] at hother
    obtain ⟨hkind, hparents⟩ := hothers other fun heq => hother (heq ▸ List.mem_range.mpr hid)
    rw [Object.isContext, hkind, hparents]
    exact hm.within other hother
  · rw [hsize]
    rcases hentries entry hentry with hentry | heq
    · exact hm.held entry hentry
    · exact heq ▸ hid

/-- A registration leaves the entries of graphs and adds at most one for its entity. -/
theorem Kept.mem_entries {later : Memory} {graph id : Nat} (h : m.Kept later graph id)
    {entry : Entry} : entry ∈ later.entries →
      entry ∈ m.entries ∨ entry = ⟨graph, (m.object id).name, id⟩ := by
  intro hentry
  rcases h.written with ⟨heq, -⟩ | ⟨heq | heq, -⟩
  · exact .inl (heq ▸ hentry)
  · exact .inl (heq ▸ hentry)
  · rw [heq, List.mem_append, List.mem_singleton] at hentry
    exact hentry

theorem Kept.knows {later : Memory} {graph id : Nat} (h : m.Kept later graph id) {other : Nat}
    (hother : m.knows other = true) : later.knows other = true := by
  obtain ⟨graph', hholds⟩ := knows_iff.mp hother
  obtain ⟨name, hentry⟩ := holds_iff.mp hholds
  refine knows_iff.mpr ⟨graph', holds_iff.mpr ⟨name, ?_⟩⟩
  rcases h.written with ⟨heq, -⟩ | ⟨heq | heq, -⟩
  · exact heq ▸ hentry
  · exact heq ▸ hentry
  · exact heq ▸ List.mem_append_left _ hentry

theorem Sized.of_kept (hm : m.Sized) {later : Memory} {graph id : Nat} (hid : id < m.size)
    (h : m.Kept later graph id) : later.Sized := by
  refine hm.of_others hid h.size (fun other hother => ⟨(h.labels other).2, h.others other hother⟩) ?_
  intro entry hentry
  exact (h.mem_entries hentry).imp_right fun heq => congrArg Entry.id heq

/-- A new object changes nothing about those that graphs hold. -/
theorem Sound.make (hm : m.Sound) (hsized : m.Sized) (o : Object) : (m.make o).Sound := by
  refine ⟨fun entry hentry => ?_, fun id hid item hitem => ?_⟩
  · have hobject : (m.make o).object entry.id = m.object entry.id :=
      if_neg (Nat.ne_of_lt (hsized.held entry hentry))
    rw [hobject]
    exact hm.named entry hentry
  · have hobject : (m.make o).object id = m.object id :=
      if_neg (Nat.ne_of_lt (hsized.lt_of_knows hid))
    rw [hobject] at hitem
    exact hm.full id hid item hitem

/-- A registration leaves what is there among the parents of entities. -/
theorem Sound.of_kept (hm : m.Sound) {later : Memory} {graph id : Nat} (h : m.Kept later graph id) :
    later.Sound := by
  have hname (other : Nat) : (later.object other).name = (m.object other).name :=
    congrArg Name.text (h.labels other).1
  refine ⟨fun entry hentry => ?_, fun other hother item hitem => ?_⟩
  · rw [hname]
    rcases h.mem_entries hentry with hentry | rfl
    · exact hm.named entry hentry
    · rfl
  · by_cases hown : other = id ∧ ∃ parents : List Nat,
        (later.object id).parents = parents.map .entity ∧
          ∀ parent ∈ parents, m.holds graph parent = true
    · obtain ⟨rfl, parents, hparents, hheld⟩ := hown
      rw [hparents] at hitem
      obtain ⟨parent, hparent, rfl⟩ := List.mem_map.mp hitem
      refine ⟨rfl, fun other hother => ?_⟩
      obtain rfl := Item.entity.inj hother
      exact h.knows (knows_iff.mpr ⟨graph, hheld parent hparent⟩)
    · have hsame : m.knows other = true ∧ (later.object other).parents = (m.object other).parents := by
        rcases h.written with ⟨hentries, hparents⟩ | ⟨-, hparents⟩
        · refine ⟨by rw [← hother, Memory.knows, Memory.knows, hentries], ?_⟩
          by_cases heq : other = id
          · rw [heq, hparents]
          · exact h.others other heq
        · have hne : other ≠ id := fun heq => hown ⟨heq, hparents⟩
          refine ⟨?_, h.others other hne⟩
          obtain ⟨graph', hholds⟩ := knows_iff.mp hother
          obtain ⟨name, hentry⟩ := holds_iff.mp hholds
          rcases h.mem_entries hentry with hentry | heq
          · exact knows_iff.mpr ⟨graph', holds_iff.mpr ⟨name, hentry⟩⟩
          · exact absurd (congrArg Entry.id heq) hne
      rw [hsame.2] at hitem
      obtain ⟨hsome, hknown⟩ := hm.full other hsame.1 item hitem
      exact ⟨hsome, fun parent hparent => h.knows (hknown parent hparent)⟩

/-- What an attempt keeps if registrations and new objects do. -/
theorem attemptWithin_keeps {motive : Memory → Prop} (hm : motive m)
    (hmake : ∀ o, motive (m.make o))
    (hkept : ∀ base graph id later, motive base → id < base.size → base.Kept later graph id →
      motive later)
    (depth graph : Nat) {a : Attempt} (hsize : ∀ id, a = .again (.entity id) → id < m.size) :
    motive (m.attemptWithin depth graph a).2 := by
  rcases a with r | (id | v)
  · rw [attemptWithin]
    cases create r with
    | error error => exact hm
    | ok o =>
      exact hkept _ _ _ _ (hmake o) (Nat.lt_succ_self m.size) (registerWithin_kept _ _ _ _)
  · exact hkept _ _ _ _ hm (hsize id rfl) (registerWithin_kept _ _ _ _)
  · exact hm

theorem Sized.after (hm : m.Sized) (event : Event) : (m.after event).Sized := by
  unfold Memory.after
  split
  · rename_i hids
    have hknown := List.all_eq_true.mp hids
    have hwrite (id : Nat) (hid : m.knows id = true) (change : Object → Object) :
        (m.write id change).Sized := by
      refine hm.of_others (hm.lt_of_knows hid) rfl (fun other hother => ?_) fun _ => .inl
      rw [Memory.write]
      exact ⟨congrArg Object.kind (if_neg hother), congrArg Object.parents (if_neg hother)⟩
    cases event with
    | attempt graph a =>
      refine attemptWithin_keeps hm hm.make (fun _ _ _ _ hbase hid h => hbase.of_kept hid h) _ _ ?_
      rintro id rfl
      exact hm.lt_of_knows (hknown id (by simp [Event.ids, Item.id?]))
    | assignParents id parents => exact hwrite id (hknown id List.mem_cons_self) _
    | rename id label => exact hwrite id (hknown id List.mem_cons_self) _
  · exact hm

/-- Reassigned parents are something, and held by a graph if they are entities. -/
theorem Sound.assignParents (hm : m.Sound) (id : Nat) {parents : List Item}
    (hparents : ∀ item ∈ parents,
      item.isNull = false ∧ ∀ parent, item = .entity parent → m.knows parent = true) :
    (m.assignParents id parents).Sound := by
  refine ⟨fun entry hentry => ?_, fun other hother item hitem => ?_⟩
  · rw [← hm.named entry hentry]
    simp only [Memory.assignParents, write]
    split <;> rfl
  · simp only [Memory.assignParents, write] at hitem
    split at hitem
    · exact hparents item hitem
    · exact hm.full other hother item hitem

theorem Sound.after (hm : m.Sound) (hsized : m.Sized) {event : Event} (h : event.isOrdinary = true) :
    (m.after event).Sound := by
  unfold Memory.after
  split
  · rename_i hids
    have hknown := List.all_eq_true.mp hids
    cases event with
    | attempt graph a =>
      refine (attemptWithin_keeps (motive := fun m => m.Sized ∧ m.Sound) ⟨hsized, hm⟩
        (fun o => ⟨hsized.make o, hm.make hsized o⟩)
        (fun _ _ _ _ hbase hid h => ⟨hbase.1.of_kept hid h, hbase.2.of_kept h⟩) _ _ ?_).2
      rintro id rfl
      exact hsized.lt_of_knows (hknown id (by simp [Event.ids, Item.id?]))
    | assignParents id parents =>
      refine hm.assignParents id fun item hitem => ⟨?_, ?_⟩
      · simpa using List.all_eq_true.mp h item hitem
      · rintro parent rfl
        exact hknown parent
          (List.mem_cons_of_mem _ (List.mem_filterMap.mpr ⟨.entity parent, hitem, rfl⟩))
    | rename id label => contradiction
  · exact hm

theorem sized_empty : Sized {} := ⟨fun _ _ => ⟨rfl, rfl⟩, nofun⟩

theorem sound_empty : Sound {} := ⟨nofun, nofun⟩

/-- Whatever happens, no object stands beyond the size of the memory. -/
theorem sized_afterAll (events : List Event) : (({} : Memory).afterAll events).Sized := by
  suffices h : ∀ m : Memory, m.Sized → (m.afterAll events).Sized from
    h {} sized_empty
  induction events with
  | nil => exact fun _ hm => hm
  | cons event rest ih => exact fun m hm => ih _ (hm.after event)

/-- Ordinary events leave names and parents in order. -/
theorem sound_afterAll {events : List Event} (h : ∀ event ∈ events, event.isOrdinary = true) :
    (({} : Memory).afterAll events).Sound := by
  suffices hrun : ∀ m : Memory, m.Sized → m.Sound → (m.afterAll events).Sound from
    hrun {} sized_empty sound_empty
  induction events with
  | nil => exact fun _ _ hm => hm
  | cons event rest ih =>
    obtain ⟨hevent, hrest⟩ := List.forall_mem_cons.mp h
    exact fun m hsized hm => ih hrest _ (hsized.after event) (hm.after hsized hevent)

/-- An object that is made has the name and the kind that were asked for, and stands in no relation. It
was given roles if it is a context. -/
theorem create_ok {r : Making} {o : Object} (h : create r = .ok o) :
    ∃ label given? parents, label.toValue = r.name ∧ given?.isSome = decide (r.kind = .context) ∧
      o = { label, kind := r.kind, given?, parents } := by
  rw [create] at h
  obtain ⟨given?, hgiven, h⟩ := bind_eq_ok.mp h
  split at h
  · rename_i label hlabel
    obtain ⟨parents, -, h⟩ := bind_eq_ok.mp h
    obtain rfl := pure_eq_ok.mp h
    have hname := (Option.filter_eq_some_iff.mp hlabel).1
    refine ⟨label, given?, parents, Name.toValue_of_ofValue? hname, ?_, rfl⟩
    rw [Making.givenRoles] at hgiven
    split at hgiven
    · rename_i hkind
      obtain ⟨given, -, rfl⟩ := map_eq_ok.mp hgiven
      simp [hkind]
    · rename_i hkind
      obtain rfl := Except.ok.inj hgiven
      simp [hkind]
  · exact absurd h throw_ne_ok

/-- What comes of an attempt: it fails and writes at most to its entity, or the graph holds the entity
and others are told, which can fail only where a null stands among the parents of an entity above. -/
theorem attemptWithin_outcome (hm : m.Sized) {depth : Nat} (hdepth : m.size < depth) (graph : Nat)
    (a : Attempt) :
    let ran := m.attemptWithin depth graph a
    (∃ error, ran.1 = .error error ∧ m.Refused ran.2 graph (m.subject a)) ∨
    (m.Extended ran.2 graph (m.subject a) ∧
      (ran.1 = .ok () ∨ ∃ error, ran.1 = .error error ∧ ran.2.NullAbove (m.subject a))) := by
  have hlength : (List.range m.size).length < depth := by rwa [List.length_range]
  rcases a with r | (id | v)
  · rw [attemptWithin]
    cases hcreate : create r with
    | error error => exact .inl ⟨error, rfl, rfl, fun _ _ => rfl, fun _ => .inl rfl⟩
    | ok o =>
      have hobject {other : Nat} (hother : other ≠ m.size) :
          (m.make o).object other = m.object other := if_neg hother
      have hwithin : (m.make o).Within (m.size :: List.range m.size) := by
        intro other hother
        obtain ⟨hne, hother⟩ := List.ne_and_not_mem_of_not_mem_cons hother
        rw [hobject hne]
        exact hm.within other hother
      rcases registerWithin_outcome hwithin hlength graph with
        ⟨error, herror, hwritten⟩ | ⟨hextended, houtcome⟩
      · refine .inl ⟨error, herror, ?_⟩
        rcases hwritten with hsame | ⟨parents, hplaced⟩
        · refine ⟨(congrArg Memory.entries hsame :), fun other hother => ?_,
            fun hne => absurd rfl hne⟩
          exact (congrFun (congrArg Memory.object hsame) other).trans (hobject hother)
        · exact ⟨hplaced.entries, fun other hother =>
            (hplaced.object_of_ne hother).trans (hobject hother), fun hne => absurd rfl hne⟩
      · refine .inr ⟨⟨hextended.entries, hextended.free, fun other hother => ?_, hextended.parents⟩,
          houtcome⟩
        obtain ⟨child, below, gated, heq⟩ := hextended.others other hother
        refine ⟨child, below, gated, heq.trans ?_⟩
        rw [hobject hother]
        rfl
  · rcases registerWithin_outcome (hm.within.mono (List.subset_cons_self id _)) hlength graph with
      ⟨error, herror, hwritten⟩ | houtcome
    · refine .inl ⟨error, herror, ?_⟩
      rcases hwritten with hsame | ⟨parents, hplaced⟩
      · exact ⟨congrArg Memory.entries hsame, fun other _ =>
          congrFun (congrArg Memory.object hsame) other, fun _ => .inl hsame⟩
      · exact ⟨hplaced.entries, fun other hother => hplaced.object_of_ne hother,
          fun _ => .inr ⟨parents, hplaced⟩⟩
    · exact .inr houtcome
  · exact .inl ⟨_, rfl, rfl, fun _ _ => rfl, fun _ => .inl rfl⟩

/-- An attempt is not cut short by the bound on its ways up. -/
theorem attemptWithin_stable (hm : m.Sized) {depth : Nat} (hdepth : m.size < depth) (graph : Nat)
    (a : Attempt) : m.attemptWithin depth graph a = m.attempt graph a := by
  have hlength : (List.range m.size).length < depth := by rwa [List.length_range]
  have hlength' : (List.range m.size).length < m.size + 1 := by
    rw [List.length_range]
    exact Nat.lt_succ_self _
  rcases a with r | (id | v)
  · rw [attempt, attemptWithin, attemptWithin]
    cases create r with
    | error error => rfl
    | ok o =>
      refine registerWithin_stable (List.range m.size) ?_ hlength hlength' graph
      refine ((hm.make o).within).mono fun other hother => ?_
      rw [List.mem_range] at hother
      rw [List.mem_cons, List.mem_range]
      exact (Nat.lt_succ_iff_lt_or_eq.mp hother).symm
  · exact registerWithin_stable _ (hm.within.mono (List.subset_cons_self id _)) hlength hlength' graph
  · rfl

/-- The entity of an attempt is what was asked for: a new one with the given name and of the given kind,
or the one that was handed over. -/
def Granted (m later : Memory) : Attempt → Prop
  | .making r => later.size = m.size + 1 ∧ (later.object m.size).label.toValue = r.name ∧
      (later.object m.size).kind = r.kind
  | .again (.entity id) => later.size = m.size ∧
      (later.object id).label = (m.object id).label ∧ (later.object id).kind = (m.object id).kind
  | .again (.value _) => False

/-- What succeeds was asked for. -/
theorem granted_of_ok {depth graph : Nat} {a : Attempt}
    (h : (m.attemptWithin depth graph a).1 = .ok ()) :
    m.Granted (m.attemptWithin depth graph a).2 a := by
  rcases a with r | (id | v)
  · rw [attemptWithin] at h ⊢
    cases hcreate : create r with
    | error error => simp [hcreate] at h
    | ok o =>
      obtain ⟨label, given?, parents, hlabel, -, rfl⟩ := create_ok hcreate
      have hkept := (m.make { label, kind := r.kind, given?, parents }).registerWithin_kept
        depth graph m.size
      obtain ⟨hlabels, hkinds⟩ := hkept.labels m.size
      have hobject : (m.make { label, kind := r.kind, given?, parents }).object m.size =
          { label, kind := r.kind, given?, parents } := if_pos rfl
      rw [hobject] at hlabels hkinds
      exact ⟨hkept.size, (congrArg Name.toValue hlabels).trans hlabel, hkinds⟩
  · have hkept := m.registerWithin_kept depth graph id
    exact ⟨hkept.size, hkept.labels id⟩
  · cases h

/-- Under its own name a graph that holds an entity accepts it no more. -/
theorem Sound.find?_isSome (hm : m.Sound) {graph id : Nat} (h : m.holds graph id = true) :
    m.find? graph (m.object id).name ≠ none := by
  obtain ⟨name, hentry⟩ := holds_iff.mp h
  have hname : (m.object id).name = name := hm.named _ hentry
  rw [find?, Ne, Option.map_eq_none_iff, List.find?_eq_none]
  intro hnone
  exact hnone _ hentry (by simp [hname])

/-- An entity that a graph holds stays as it was when it is refused there. -/
theorem Sound.object_of_refused (hm : m.Sound) (hsized : m.Sized) {later : Memory}
    {graph subject : Nat} (h : m.Refused later graph subject) {id : Nat}
    (hid : m.holds graph id = true) : later.object id = m.object id := by
  by_cases hsubject : id = subject
  · subst hsubject
    have hlt := hsized.lt_of_knows (knows_iff.mpr ⟨graph, hid⟩)
    rcases h.subject (Nat.ne_of_lt hlt) with rfl | ⟨parents, hplaced⟩
    · rfl
    · exact absurd (accept_ok hplaced.accepted).1 (hm.find?_isSome hid)
  · exact h.others id hsubject

/-- Where no null stands among parents, none stands above an entity that the graph takes in. -/
theorem Sound.not_nullAbove (hm : m.Sound) {later : Memory} {graph subject : Nat}
    (h : m.Extended later graph subject) : ¬ later.NullAbove subject := by
  obtain ⟨parents, hparents, -, hheld⟩ := h.parents
  have hitems (id : Nat) (hid : m.knows id = true) : ∀ item ∈ (later.object id).parents,
      item.isNull = false ∧ ∀ parent, item = .entity parent → m.knows parent = true := by
    intro item hitem
    by_cases hsubject : id = subject
    · rw [hsubject, hparents] at hitem
      obtain ⟨parent, hparent, rfl⟩ := List.mem_map.mp hitem
      refine ⟨rfl, fun other hother => ?_⟩
      obtain rfl := Item.entity.inj hother
      exact knows_iff.mpr ⟨graph, (hheld parent hparent).1⟩
    · obtain ⟨child, below, gated, heq⟩ := h.others id hsubject
      rw [heq] at hitem
      exact hm.full id hid item hitem
  have hup (id : Nat) (hid : m.knows id = true) : ∀ parent ∈ later.parentIds id,
      m.knows parent = true := by
    intro parent hparent
    obtain ⟨item, hitem, heq⟩ := List.mem_filterMap.mp hparent
    obtain ⟨-, hknown⟩ := hitems id hid item ((List.takeWhile_sublist _).subset hitem)
    cases item with
    | value v => cases heq
    | entity other => exact hknown parent (congrArg Item.entity (Option.some.inj heq))
  rintro ⟨other, habove, -, item, hitem, hnone⟩
  obtain ⟨parent, hlink, hreach⟩ := TransGen.head'_iff.mp habove
  rw [Link, parentIds_of_entities hparents] at hlink
  have hparent : m.knows parent = true := knows_iff.mpr ⟨graph, (hheld parent hlink).1⟩
  have hreached (top : Nat) (htop : ReflTransGen (Link later.parentIds) parent top) :
      m.knows top = true := by
    induction htop with
    | refl => exact hparent
    | tail _ hstep ih => exact hup _ ih _ hstep
  rw [(hitems other (hreached other hreach) item hitem).1] at hnone
  cases hnone

/-- An attempt at a registration is all or nothing. If it fails, graphs hold what they held and all
entities are as they were, but for the parents of the one that it is about, if its name is free there,
and the roles that were not checked before; or the graph holds the entity and a null stands
among the parents of another one above. If it succeeds, the graph holds last what was asked for, and all
other entities are as they were but for its place in the sets that lead down. It is not cut short by the
bound on its ways up. -/
structure AllOrNothing (m : Memory) (graph : Nat) (a : Attempt) : Prop where
  failed : ∀ error, (m.attempt graph a).1 = .error error →
    m.Refused (m.attempt graph a).2 graph (m.subject a) ∨
      m.Extended (m.attempt graph a).2 graph (m.subject a) ∧
        (m.attempt graph a).2.NullAbove (m.subject a)
  succeeded : (m.attempt graph a).1 = .ok () →
    m.Extended (m.attempt graph a).2 graph (m.subject a) ∧ m.Granted (m.attempt graph a).2 a
  unbounded : ∀ depth, m.size < depth → m.attemptWithin depth graph a = m.attempt graph a

/-- An attempt that fails leaves every entity that the graph holds as it was, and one that succeeds is
about an entity that the graph did not hold. -/
structure LeavesHeld (m : Memory) (graph : Nat) (a : Attempt) : Prop where
  failed : ∀ error, (m.attempt graph a).1 = .error error →
    m.Refused (m.attempt graph a).2 graph (m.subject a) ∧
      ∀ id, m.holds graph id = true → (m.attempt graph a).2.object id = m.object id
  succeeded : (m.attempt graph a).1 = .ok () → m.holds graph (m.subject a) = false

/-- Every attempt is all or nothing, in whatever state entities and graphs are. -/
theorem Sized.allOrNothing (hm : m.Sized) (graph : Nat) (a : Attempt) : m.AllOrNothing graph a := by
  have houtcome := attemptWithin_outcome hm (Nat.lt_succ_self m.size) graph a
  refine ⟨fun error herror => ?_, fun hok => ?_, fun depth hdepth =>
    attemptWithin_stable hm hdepth graph a⟩
  · rcases houtcome with ⟨-, -, hrefused⟩ | ⟨hextended, hok | ⟨-, -, habove⟩⟩
    · exact .inl hrefused
    · exact absurd (herror.symm.trans hok) nofun
    · exact .inr ⟨hextended, habove⟩
  · rcases houtcome with ⟨error, herror, -⟩ | ⟨hextended, -⟩
    · exact absurd (herror.symm.trans hok) nofun
    · exact ⟨hextended, granted_of_ok hok⟩

/-- Where entities have the names under which graphs hold them and no null stands among their parents,
an attempt leaves what the graph holds. -/
theorem Sound.leavesHeld (hm : m.Sound) (hsized : m.Sized) (graph : Nat) (a : Attempt) :
    m.LeavesHeld graph a := by
  have hall := hsized.allOrNothing graph a
  refine ⟨fun error herror => ?_, fun hok => ?_⟩
  · rcases hall.failed error herror with hrefused | ⟨hextended, habove⟩
    · exact ⟨hrefused, fun id hid => hm.object_of_refused hsized hrefused hid⟩
    · exact absurd habove (hm.not_nullAbove hextended)
  · obtain ⟨hextended, hgranted⟩ := hall.succeeded hok
    by_contra hholds
    have hholds : m.holds graph (m.subject a) = true := by simpa using hholds
    rcases a with r | (id | v)
    · exact Nat.lt_irrefl _ (hsized.lt_of_knows (knows_iff.mpr ⟨graph, hholds⟩))
    · refine hm.find?_isSome hholds ?_
      rw [← hextended.free]
      exact congrArg (fun label : Name => m.find? graph label.text) hgranted.2.1.symm
    · exact hgranted

end Memory

end AccessMatrix
