import AccessMatrix.Proofs.Evaluation.Resolved
import AccessMatrix.Proofs.Graph.Nearness
import AccessMatrix.Proofs.Session.Growth

/-!
# The chain of a resolution

A resolution goes up through the contexts above a subject, nearest first, and keeps a table of the
instance keys that it has learned on the way. Each membership that it finds adds what it tells to the
table and overwrites nothing, so under a context there stands what the nearest membership said that
said anything. This makes the table superfluous as a specification: the key of a context is that of
the subject, or else the first that is told by the memberships found before. The induction is on the
contexts, with whatever was learned so far.
-/

namespace AccessMatrix

/-- In every world that sessions lead to, entities rank their ancestors, also where parents were
reassigned. -/
theorem Session.World.Reached.ranked {w : World} (h : w.Reached) :
    ∀ e ∈ w.graph.entities, e.Ranked :=
  h.keeps_graph (fun _ he => absurd he List.not_mem_nil) Graph.ranked_register
    Graph.ranked_assignParents

namespace Evaluation

open AccessMatrix.Membership (lastOn)

/-- The key that some ancestor keys tell for a context: the first under its name that is not
empty. -/
def toldKey (ancestors : Table String (Option String)) (context : String) : Option String :=
  ancestors.findSome? fun entry => if entry.1 = context then entry.2.filter (· ≠ "") else none

/-- Where contexts are told apart, the key that is told is the one that stands under the context. -/
theorem toldKey_eq_knownKey {ancestors : Table String (Option String)}
    (h : (ancestors.map Prod.fst).Nodup) (context : String) :
    toldKey ancestors context = knownKey ancestors context := by
  induction ancestors with
  | nil => rfl
  | cons entry rest ih =>
    obtain ⟨hentry, hrest⟩ := List.nodup_cons.mp h
    rw [toldKey, List.findSome?_cons, ← toldKey, ih hrest, knownKey, knownKey, Table.get?_cons]
    by_cases hcontext : entry.1 = context
    · subst hcontext
      have hother : Table.get? rest entry.1 = none := by
        simpa [Table.get?] using fun key held hmem heq => hentry (List.mem_map.mpr ⟨_, hmem, heq⟩)
      rw [if_pos rfl, if_pos rfl, hother]
      change _ = entry.2.filter (· ≠ "")
      cases entry.2.filter (· ≠ "") <;> rfl
    · rw [if_neg hcontext, if_neg hcontext]

/-- The key of the instance of a context that counts: the one that the subject names, or else the first
that is told by memberships nearer to the subject. -/
def keyFor (subject : Subject) (nearer : List Membership) (context : String) : Option String :=
  (knownKey subject.ancestors context).or
    (nearer.findSome? fun m => toldKey m.ancestors context)

/-- Learning one entry is seen under its context, where nothing was known. -/
theorem knownKey_learn_cons (known : Table String (Option String)) (entry : String × Option String)
    (context : String) :
    knownKey (learn known [entry]) context =
      (knownKey known context).or
        (if entry.1 = context then entry.2.filter (· ≠ "") else none) := by
  rw [learn, List.foldl_cons, List.foldl_nil]
  split
  · rename_i key htold hunknown
    have hkey : key ≠ "" := by simpa using (Option.filter_eq_some_iff.mp htold).2
    rw [knownKey, Table.get?_put]
    by_cases hcontext : entry.1 = context
    · subst hcontext
      rw [if_pos rfl, if_pos rfl, htold, hunknown, Option.none_or]
      simp [hkey]
    · rw [if_neg hcontext, if_neg hcontext, Option.or_none, knownKey]
  · rename_i hnothing
    by_cases hcontext : entry.1 = context
    · subst hcontext
      rw [if_pos rfl]
      cases hknown : knownKey known entry.1 with
      | some key => rfl
      | none =>
        cases htold : entry.2.filter (· ≠ "") with
        | none => rfl
        | some key => exact absurd hknown (hnothing key htold)
    · rw [if_neg hcontext, Option.or_none]

/-- What a membership tells is learned where nothing was known, and overwrites nothing. -/
theorem knownKey_learn (known ancestors : Table String (Option String)) (context : String) :
    knownKey (learn known ancestors) context =
      (knownKey known context).or (toldKey ancestors context) := by
  induction ancestors generalizing known with
  | nil => simp [learn, toldKey]
  | cons entry rest ih =>
    have hstep : learn known (entry :: rest) = learn (learn known [entry]) rest := rfl
    rw [hstep, ih, knownKey_learn_cons, Option.or_assoc, toldKey, toldKey, List.findSome?_cons]
    cases (if entry.1 = context then entry.2.filter (· ≠ "") else none) <;> rfl

/-- Memberships count as they are found in turn: the one for a context is the last on the instance with
the key for that context, which is given, or known before, or told by those that count for contexts
before it. -/
def CountsInTurn (memberships : List Membership) (given known : Table String (Option String))
    (contexts : List String) (counted : String → Option Membership) : Prop :=
  ∀ nearer context farther, contexts = nearer ++ context :: farther →
    counted context = ((knownKey given context).or ((knownKey known context).or
      ((nearer.filterMap counted).findSome? fun m => toldKey m.ancestors context))).bind
        (lastOn memberships context)

/-- What is known after a context: the keys from before, and then those that the membership found
there tells. -/
def knownAfter (known : Table String (Option String)) (found : Option Membership) :
    Table String (Option String) :=
  (found.map fun m => learn known m.ancestors).getD known

theorem knownKey_knownAfter (known : Table String (Option String)) (found : Option Membership)
    (context : String) :
    knownKey (knownAfter known found) context =
      (knownKey known context).or (found.bind fun m => toldKey m.ancestors context) := by
  cases found with
  | none => rw [Option.bind_none, Option.or_none]; rfl
  | some m => exact knownKey_learn known m.ancestors context

/-- A context is looked up with what is known, and the way goes on with what is known after it. -/
theorem chainFrom_cons (memberships : List Membership) (given known : Table String (Option String))
    (context : String) (rest : List String) :
    let found := ((knownKey given context).or (knownKey known context)).bind
      (lastOn memberships context)
    chainFrom memberships given known (context :: rest) =
      found.toList ++ chainFrom memberships given (knownAfter known found) rest := by
  rw [chainFrom]
  cases ((knownKey given context).or (knownKey known context)).bind
    (lastOn memberships context) <;> rfl

/-- The way up the contexts collects the memberships that count in turn. -/
theorem chainFrom_counts {contexts : List String} (hcontexts : contexts.Nodup)
    (memberships : List Membership) (given known : Table String (Option String)) :
    ∃ counted, chainFrom memberships given known contexts = contexts.filterMap counted ∧
      CountsInTurn memberships given known contexts counted := by
  induction contexts generalizing known with
  | nil => exact ⟨fun _ => none, rfl, fun nearer context farther h => by simp at h⟩
  | cons first rest ih =>
    obtain ⟨hfirst, hrest⟩ := List.nodup_cons.mp hcontexts
    let found := ((knownKey given first).or (knownKey known first)).bind (lastOn memberships first)
    obtain ⟨counted, hchain, hcounts⟩ := ih hrest (knownAfter known found)
    let withFirst := fun context => if context = first then found else counted context
    have hsame {names : List String} (hnames : first ∉ names) :
        names.filterMap withFirst = names.filterMap counted := by
      refine List.filterMap_congr fun name hname => if_neg ?_
      exact fun heq => hnames (heq ▸ hname)
    have hcons (names : List String) :
        (first :: names).filterMap withFirst = found.toList ++ names.filterMap withFirst := by
      have hhead : withFirst first = found := if_pos rfl
      rw [List.filterMap_cons, hhead]
      cases found <;> rfl
    refine ⟨withFirst, ?_, fun nearer context farther hsplit => ?_⟩
    · rw [chainFrom_cons, hchain, hcons, hsame hfirst]
    · cases nearer with
      | nil =>
        obtain ⟨rfl, -⟩ := List.cons.inj hsplit
        rw [List.filterMap_nil, List.findSome?_nil, Option.or_none]
        exact if_pos rfl
      | cons other nearer =>
        obtain ⟨rfl, hrestSplit⟩ := List.cons.inj hsplit
        change rest = nearer ++ context :: farther at hrestSplit
        have hother : context ≠ first := fun heq => hfirst (by rw [hrestSplit, heq]; simp)
        have hnearer : first ∉ nearer := fun hmem => hfirst (by rw [hrestSplit]; simp [hmem])
        have hcontext : withFirst context = counted context := if_neg hother
        -- what the first membership tells stands before what the others tell
        rw [hcontext, hcounts nearer context farther hrestSplit, knownKey_knownAfter, hcons,
          hsame hnearer, List.findSome?_append, Option.or_assoc]
        congr 3
        cases found <;> simp

section

variable {g : Graph}

/-- The contexts that a resolution goes through are those among the ancestors, by their nearness. -/
theorem contextsAbove_eq (g : Graph) (name : String) :
    (Policy.Round.contextsAbove g name).map Entity.name =
      (g.nearestOf name).filter g.hasContext :=
  Graph.map_name_contextsAmong g _

/-- Where entities rank their ancestors, the contexts above a name are told apart and it is none of
them. -/
theorem nodup_contexts (hg : ∀ e ∈ g.entities, e.Ranked) (name : String) :
    ((g.nearestOf name).filter g.hasContext).Nodup ∧
      name ∉ (g.nearestOf name).filter g.hasContext := by
  rw [Graph.nearestOf]
  cases hfind : g.find? name with
  | none => simp
  | some e =>
    have hname : e.name = name := Graph.name_of_find? hfind
    obtain ⟨hnodup, hself⟩ := hg e (List.mem_of_find?_eq_some hfind)
    exact ⟨hnodup.filter _, fun hmem => hself (hname.symm ▸ (List.mem_filter.mp hmem).1)⟩

variable {input : Input}

/-- Where the subject names the key of a context above it, what counts there is on that instance. -/
theorem key_of_counts {memberships : List Membership} {given known : Table String (Option String)}
    {contexts : List String} {counted : String → Option Membership}
    (h : CountsInTurn memberships given known contexts counted) {m : Membership}
    (hm : m ∈ contexts.filterMap counted) {key : String}
    (hkey : knownKey given m.contextName = some key) : m.contextKey = key := by
  obtain ⟨context, hcontext, hcounted⟩ := List.mem_filterMap.mp hm
  obtain ⟨nearer, farther, hsplit⟩ := List.append_of_mem hcontext
  rw [h nearer context farther hsplit] at hcounted
  obtain ⟨found, hfound, hlast⟩ := Option.bind_eq_some_iff.mp hcounted
  obtain ⟨-, rfl, rfl⟩ := Membership.mem_of_lastOn hlast
  rw [hkey, Option.some_or] at hfound
  exact (Option.some.inj hfound).symm

/-- What is given on the subject's own instance has no part in the chain, because the subject is no
context above itself. -/
theorem chain_without_direct (hg : ∀ e ∈ g.entities, e.Ranked) :
    (resolve g ⟨input.memberships.filter fun m => !m.isOn input.subject.name input.subject.key,
      input.subject⟩).chain = (resolve g input).chain := by
  let keeps := fun context key : String =>
    !(Decidable.decide (context = input.subject.name) && Decidable.decide (key = input.subject.key))
  have hkept (context key : String) :
      lastOn (input.memberships.filter fun m => !m.isOn input.subject.name input.subject.key)
          context key =
        if keeps context key then lastOn input.memberships context key else none :=
    Membership.lastOn_filter _ keeps context key
  refine chainFrom_eq (fun context key m hm => ?_) fun m hm => ?_
  · change lastOn (input.memberships.filter _) context key = some m at hm
    rw [hkept] at hm
    split at hm
    · exact hm
    · contradiction
  · obtain ⟨hcontext, hlast⟩ := mem_of_mem_chainFrom hm
    rw [contextsAbove_eq] at hcontext
    have hother : m.contextName ≠ input.subject.name := fun heq =>
      (nodup_contexts hg input.subject.name).2 (heq ▸ hcontext)
    change lastOn (input.memberships.filter _) m.contextName m.contextKey = some m
    rw [hkept, if_pos (by simp [keeps, hother])]
    exact hlast

end

/-- The chain of a resolution is told by the keys of the contexts. Whatever a session did before, a
query that can be read is resolved, with the last membership on the subject's own instance as the
direct one. The chain has, for the contexts among the ancestors of the subject in their order, the
last membership on the instance with the key of the context, where there is a key and a membership;
the key is the one that the subject names, or else the first that is told by what counts for contexts
before it. The direct membership is not in the chain, nor does it make a difference there. And where
the subject names the key of a context above it, no membership on another instance of it counts. -/
theorem chain_follows_keys {s : Session} (hs : s.world.Reached) {memberships subject : Value}
    {input : Input} (hread : readInput s.engine memberships subject = .ok input) :
    let g := s.engine.graph
    let own := input.subject
    let contexts := (g.nearestOf own.name).filter g.hasContext
    ∃ r, (query s.engine memberships subject).value = some r ∧
      r.direct? = lastOn input.memberships own.name own.key ∧
      (∃ counted : String → Option Membership, r.chain = contexts.filterMap counted ∧
        ∀ nearer context farther, contexts = nearer ++ context :: farther →
          counted context = (keyFor own (nearer.filterMap counted) context).bind
            (lastOn input.memberships context)) ∧
      (∀ m ∈ r.direct?, m ∉ r.chain) ∧
      (resolve g ⟨input.memberships.filter fun m => !m.isOn own.name own.key, own⟩).chain =
        r.chain ∧
      (∀ context ∈ contexts, ∀ key, knownKey own.ancestors context = some key →
        ∀ m ∈ r.held, m.contextName = context → m.contextKey = key) ∧
      (∀ m ∈ input.memberships, (m.ancestors.map Prod.fst).Nodup →
        ∀ context, toldKey m.ancestors context = knownKey m.ancestors context) := by
  intro g own contexts
  have hranked : ∀ e ∈ g.entities, e.Ranked := hs.ranked
  obtain ⟨hnodup, hself⟩ := nodup_contexts hranked own.name
  obtain ⟨counted, hchain, hcounts⟩ :=
    chainFrom_counts hnodup input.memberships own.ancestors []
  have hresolved : (resolve g input).chain = contexts.filterMap counted := by
    rw [← hchain, ← contextsAbove_eq]
    rfl
  have hoff (m : Membership) (hm : m ∈ (resolve g input).direct?) : m.contextName ∉ contexts := by
    obtain ⟨-, hname, -⟩ := Membership.mem_of_lastOn hm
    rw [hname]
    exact hself
  refine ⟨resolve g input, ?_, rfl, ⟨counted, hresolved, hcounts⟩, fun m hm hmem => ?_,
    chain_without_direct hranked, fun context hcontext key hkey m hm hname => ?_,
    fun m _ htable context => toldKey_eq_knownKey htable context⟩
  · simp only [query, hread, g]
  · have hcontext := (mem_of_mem_chainFrom hmem).1
    rw [contextsAbove_eq] at hcontext
    exact hoff m hm hcontext
  · subst hname
    rcases List.mem_append.mp hm with hdirect | hmem
    · exact absurd hcontext (hoff m (Option.mem_toList.mp hdirect))
    · exact key_of_counts hcounts (hresolved ▸ hmem) hkey

open Session (Command)

/-- A project of a team in a division of an organization. -/
def projectCommands : List Command :=
  [.step (.register { kind := .context, name := .text "org", roles := .ofTexts ["admin"] }),
    .step (.register { kind := .context, name := .text "division", roles := .ofTexts ["member"],
                       parents := .each [.own "org"] }),
    .step (.register { kind := .context, name := .text "team", roles := .ofTexts ["member"],
                       parents := .each [.own "division"] }),
    .step (.register { kind := .context, name := .text "project", roles := .ofTexts ["member"],
                       parents := .each [.own "team"] })]

/-- A member of a project who was told of three organizations: by the team, by the division, and by
the project. -/
def projectInput : Input where
  memberships :=
    [⟨"org", "o1", some "admin", []⟩, ⟨"org", "o2", some "admin", []⟩,
      ⟨"project", "p1", some "member", [("org", some "o3")]⟩,
      ⟨"division", "d1", some "member", [("org", some "o2")]⟩,
      ⟨"team", "t1", some "member", [("division", some "d1"), ("org", some "o1")]⟩]
  subject := ⟨"project", "p1", [("team", some "t1")]⟩

/-- The contexts above the project, nearest first. -/
theorem contexts_project :
    let g := (({} : Session).after projectCommands).engine.graph
    (g.nearestOf projectInput.subject.name).filter g.hasContext = ["team", "division", "org"] := by
  intro g
  have hregistered : g.Registered := Session.registered_after rfl
    (by decide +kernel : ∀ op ∈ ({} : Session).opsOf projectCommands, op.reassigns = false)
  have hstored : ∃ e ∈ g.entities, e.name = projectInput.subject.name ∧
      e.ancestors.Perm ["team", "division", "org"] := by
    decide +kernel
  obtain ⟨e, he, hname, hancestors⟩ := hstored
  have hnearest : g.nearestOf e.name = ["team", "division", "org"] :=
    hregistered.nearestOf_eq he (by decide) (fun _ => hancestors.symm.mem_iff) (by decide +kernel)
  rw [← hname, hnearest]
  decide +kernel

/-- The team is the nearest to the project, so the organization that it tells of is the one that
counts. -/
theorem chain_follows_keys_project :
    let s := ({} : Session).after projectCommands
    let memberships := Value.list (projectInput.memberships.map (Membership.toValue .names))
    let subject := projectInput.subject.toValue
    readInput s.engine memberships subject = .ok projectInput ∧
      ∃ r, (query s.engine memberships subject).value = some r ∧
        r.chain.map (fun m => (m.contextName, m.contextKey)) =
          [("team", "t1"), ("division", "d1"), ("org", "o1")] ∧
        r.direct?.map Membership.contextName = some "project" ∧
        ∀ m ∈ r.held, m.contextName = "team" → m.contextKey = "t1" := by
  intro s memberships subject
  have hread : readInput s.engine memberships subject = .ok projectInput := by rfl
  obtain ⟨r, hquery, hdirect, ⟨counted, hchain, hcounts⟩, -, -, hkeys, -⟩ :=
    chain_follows_keys (Session.World.reached_after projectCommands) hread
  rw [contexts_project] at hchain hcounts hkeys
  have hteam : counted "team" = projectInput.memberships[4]? := by
    rw [hcounts [] "team" _ rfl, List.filterMap_nil]
    decide +kernel
  have hdivision : counted "division" = projectInput.memberships[3]? := by
    rw [hcounts ["team"] "division" _ rfl, List.filterMap_cons, hteam, List.filterMap_nil]
    decide +kernel
  have horg : counted "org" = projectInput.memberships[0]? := by
    rw [hcounts ["team", "division"] "org" _ rfl, List.filterMap_cons, hteam, List.filterMap_cons,
      hdivision, List.filterMap_nil]
    decide +kernel
  refine ⟨hread, r, hquery, ?_, ?_, hkeys "team" (by simp) "t1" (by decide +kernel)⟩
  · rw [hchain, List.filterMap_cons, hteam, List.filterMap_cons, hdivision, List.filterMap_cons, horg]
    rfl
  · rw [hdirect]
    decide +kernel

end Evaluation

end AccessMatrix
