import AccessMatrix.Proofs.Evaluation.Exactness

/-!
# What a resolution rests on

A resolution looks memberships up by their instance, and where several are on one instance it finds
the last. The ancestor keys by which it goes on are those of the subject and of the memberships that
it found. So nothing but the memberships that count has a part in the answers: whatever else was
given may be left out, and the order matters only among memberships on the same instance.
-/

namespace AccessMatrix

namespace Membership

variable {memberships kept : List Membership} {context key : String} {m : Membership}

theorem isOn_iff : m.isOn context key = true ↔ m.contextName = context ∧ m.contextKey = key := by
  simp [isOn]

/-- What is found on an instance was given and is on it. -/
theorem mem_of_lastOn (h : lastOn memberships context key = some m) :
    m ∈ memberships ∧ m.contextName = context ∧ m.contextKey = key := by
  obtain ⟨hmem, hon⟩ := List.mem_filter.mp (List.mem_of_getLast? h)
  exact ⟨hmem, isOn_iff.mp hon⟩

/-- Whatever is found in some memberships is found in others. -/
def FoundIn (kept memberships : List Membership) : Prop :=
  ∀ context key m, lastOn kept context key = some m → lastOn memberships context key = some m

/-- Only the instances that memberships are on have to be looked up. -/
theorem foundIn_iff :
    FoundIn kept memberships ↔ ∀ m ∈ kept, lastOn kept m.contextName m.contextKey = some m →
      lastOn memberships m.contextName m.contextKey = some m := by
  constructor
  · intro h m _ hlast
    exact h _ _ m hlast
  · intro h context key m hlast
    obtain ⟨hm, rfl, rfl⟩ := mem_of_lastOn hlast
    exact h m hm hlast

instance (kept memberships : List Membership) : Decidable (FoundIn kept memberships) :=
  decidable_of_iff _ foundIn_iff.symm

/-- On an instance the same is found in both lists, if what the larger one has there is not missing
in the other. -/
theorem FoundIn.lastOn_eq (h : FoundIn kept memberships)
    (hfound : ∀ m, lastOn memberships context key = some m →
      lastOn kept m.contextName m.contextKey = some m) :
    lastOn kept context key = lastOn memberships context key := by
  cases hlast : lastOn memberships context key with
  | none =>
    rw [Option.eq_none_iff_forall_ne_some]
    intro m hm
    simp [h context key m hm] at hlast
  | some m =>
    obtain ⟨-, rfl, rfl⟩ := mem_of_lastOn hlast
    exact hfound m hlast

/-- A membership is not missed where a later one is on its instance. -/
theorem lastOn_dropEarlier {before after : List Membership} {m later : Membership}
    (hlater : later ∈ after) (hon : later.isOn m.contextName m.contextKey = true)
    (context key : String) :
    lastOn (before ++ after) context key = lastOn (before ++ m :: after) context key := by
  simp only [lastOn, List.filter_append, List.filter_cons]
  split
  · rename_i hm
    obtain ⟨rfl, rfl⟩ := isOn_iff.mp hm
    have hmem : later ∈ after.filter fun n => n.isOn m.contextName m.contextKey :=
      List.mem_filter.mpr ⟨hlater, hon⟩
    obtain ⟨last, hlast⟩ := Option.isSome_iff_exists.mp
      (List.getLast?_isSome.mpr (List.ne_nil_of_mem hmem))
    rw [List.getLast?_append, List.getLast?_append, List.getLast?_cons, hlast]
    rfl
  · rfl

/-- Leaving out whole instances changes nothing on the others. -/
theorem lastOn_filter (memberships : List Membership) (keeps : String → String → Bool)
    (context key : String) :
    lastOn (memberships.filter fun m => keeps m.contextName m.contextKey) context key =
      if keeps context key then lastOn memberships context key else none := by
  have hboth (m : Membership) :
      (m.isOn context key && keeps m.contextName m.contextKey) =
        (keeps context key && m.isOn context key) := by
    rw [Bool.eq_iff_iff]
    simp only [Bool.and_eq_true, isOn_iff]
    constructor
    · rintro ⟨⟨rfl, rfl⟩, hkeeps⟩
      exact ⟨hkeeps, rfl, rfl⟩
    · rintro ⟨hkeeps, rfl, rfl⟩
      exact ⟨⟨rfl, rfl⟩, hkeeps⟩
  simp only [lastOn, List.filter_filter, hboth]
  split
  · rename_i hkeeps
    simp only [hkeeps, Bool.true_and]
  · rename_i hkeeps
    simp [hkeeps]

end Membership

namespace Evaluation

open AccessMatrix.Membership (FoundIn lastOn)

/-- What is looked up on the way is found in the memberships given, on one of the contexts. -/
theorem mem_of_mem_chainFrom {memberships : List Membership}
    {given known : Table String (Option String)} {contexts : List String} {m : Membership}
    (h : m ∈ chainFrom memberships given known contexts) :
    m.contextName ∈ contexts ∧ lastOn memberships m.contextName m.contextKey = some m := by
  induction contexts generalizing known with
  | nil => contradiction
  | cons context rest ih =>
    simp only [chainFrom] at h
    split at h
    · obtain ⟨hcontext, hlast⟩ := ih h
      exact ⟨List.mem_cons_of_mem _ hcontext, hlast⟩
    · rename_i found hfound
      rcases List.mem_cons.mp h with rfl | h
      · obtain ⟨key, -, hlast⟩ := Option.bind_eq_some_iff.mp hfound
        obtain ⟨-, rfl, rfl⟩ := Membership.mem_of_lastOn hlast
        exact ⟨List.mem_cons_self, hlast⟩
      · obtain ⟨hcontext, hlast⟩ := ih h
        exact ⟨List.mem_cons_of_mem _ hcontext, hlast⟩

/-- The way up is the same by fewer memberships, if none that is found on it is missing. -/
theorem chainFrom_eq {kept memberships : List Membership} (hwithin : FoundIn kept memberships)
    {given known : Table String (Option String)} {contexts : List String}
    (hfound : ∀ m ∈ chainFrom memberships given known contexts,
      lastOn kept m.contextName m.contextKey = some m) :
    chainFrom kept given known contexts = chainFrom memberships given known contexts := by
  induction contexts generalizing known with
  | nil => rfl
  | cons context rest ih =>
    -- the two ways have found the same so far, so they know the same keys and look up the same one
    have hsame :
        ((knownKey given context).or (knownKey known context)).bind (lastOn kept context) =
          ((knownKey given context).or (knownKey known context)).bind
            (lastOn memberships context) := by
      cases hkey : (knownKey given context).or (knownKey known context) with
      | none => rfl
      | some key =>
        refine hwithin.lastOn_eq fun m hlast => hfound m ?_
        simp [chainFrom, hkey, hlast]
    simp only [chainFrom, hsame] at hfound ⊢
    split at hfound
    · exact ih hfound
    · exact congrArg _ (ih (List.forall_mem_cons.mp hfound).2)

/-- Of some memberships those are left that count for a subject, and maybe more. -/
structure KeepsHeld (g : Graph) (subject : Subject) (memberships kept : List Membership) :
    Prop where
  foundIn : FoundIn kept memberships
  held : ∀ m ∈ (resolve g ⟨memberships, subject⟩).held,
    lastOn kept m.contextName m.contextKey = some m

instance (g : Graph) (subject : Subject) (memberships kept : List Membership) :
    Decidable (KeepsHeld g subject memberships kept) :=
  decidable_of_iff (FoundIn kept memberships ∧
      ∀ m ∈ (resolve g ⟨memberships, subject⟩).held,
        lastOn kept m.contextName m.contextKey = some m)
    ⟨fun h => ⟨h.1, h.2⟩, fun h => ⟨h.foundIn, h.held⟩⟩

variable {g : Graph} {subject : Subject} {memberships kept : List Membership}

/-- What counts for a subject was found on its instance. -/
theorem lastOn_of_mem_held {m : Membership} (h : m ∈ (resolve g ⟨memberships, subject⟩).held) :
    lastOn memberships m.contextName m.contextKey = some m := by
  rcases List.mem_append.mp h with hdirect | hchain
  · have hlast : lastOn memberships subject.name subject.key = some m :=
      Option.mem_toList.mp hdirect
    obtain ⟨-, hname, hkey⟩ := Membership.mem_of_lastOn hlast
    rw [hname, hkey]
    exact hlast
  · exact (mem_of_mem_chainFrom hchain).2

namespace KeepsHeld

/-- Where the same is found on every instance, all that counts is left. -/
theorem of_lastOn_eq
    (h : ∀ context key, lastOn kept context key = lastOn memberships context key) :
    KeepsHeld g subject memberships kept where
  foundIn context key m hm := h context key ▸ hm
  held m hm := by
    rw [h]
    exact lastOn_of_mem_held hm

/-- Whole instances may be left out, if nothing on them counts. -/
theorem of_filter {keeps : String → String → Bool}
    (h : ∀ m ∈ (resolve g ⟨memberships, subject⟩).held,
      keeps m.contextName m.contextKey = true) :
    KeepsHeld g subject memberships
      (memberships.filter fun m => keeps m.contextName m.contextKey) where
  foundIn context key m hm := by
    rw [Membership.lastOn_filter] at hm
    split at hm
    · exact hm
    · contradiction
  held m hm := by
    rw [Membership.lastOn_filter, if_pos (h m hm)]
    exact lastOn_of_mem_held hm

/-- Nothing else than what counts has a part in a resolution. -/
theorem resolve_eq (h : KeepsHeld g subject memberships kept) :
    resolve g ⟨kept, subject⟩ = resolve g ⟨memberships, subject⟩ := by
  obtain ⟨hdirect, hchain⟩ := List.forall_mem_append.mp h.held
  have hdirectEq :
      lastOn kept subject.name subject.key = lastOn memberships subject.name subject.key :=
    h.foundIn.lastOn_eq fun m hlast => hdirect m (Option.mem_toList.mpr hlast)
  have hchainEq := chainFrom_eq h.foundIn hchain
  simp only [resolve, hdirectEq, hchainEq]

end KeepsHeld

/-- Two ways to give memberships get the same answers on a subject, whatever is asked. -/
def SameAnswers (e : Engine) (given given' shown : Value) : Prop :=
  (∀ action, isAllowed e given' action shown = isAllowed e given action shown ∧
    explain e given' action shown = explain e given action shown) ∧
  getActorPolicies e given' shown = getActorPolicies e given shown

/-- Queries that resolve alike are answered alike. -/
theorem sameAnswers_of_query_eq {e : Engine} {given given' shown : Value}
    (h : query e given' shown = query e given shown) : SameAnswers e given given' shown := by
  simp only [SameAnswers, isAllowed, explain, getActorPolicies, h, implies_true, and_self]

/-- Decisions rest on the memberships that count and on nothing else. Let the last membership on
every instance be the one that is found there. Whatever is left of some memberships, the resolution
is the same if everything that is found was found before and nothing that counts is missing, and so
are all answers of an engine that is given them. This covers a change of the order that keeps the
order on every instance, leaving out a membership that a later one on its instance follows, and
leaving out everything on instances that do not count. -/
theorem decisions_rest_on_held (g : Graph) (subject : Subject) (memberships : List Membership) :
    (∀ kept, KeepsHeld g subject memberships kept →
      resolve g ⟨kept, subject⟩ = resolve g ⟨memberships, subject⟩ ∧
      ∀ e : Engine, e.graph = g → ∀ given given' shown,
        readInput e given shown = .ok ⟨memberships, subject⟩ →
        readInput e given' shown = .ok ⟨kept, subject⟩ → SameAnswers e given given' shown) ∧
    (∀ kept, (∀ context key, kept.filter (fun m => m.isOn context key) =
        memberships.filter fun m => m.isOn context key) →
      KeepsHeld g subject memberships kept) ∧
    (∀ before m after, memberships = before ++ m :: after →
      (∃ later ∈ after, later.isOn m.contextName m.contextKey = true) →
      KeepsHeld g subject memberships (before ++ after)) ∧
    (∀ keeps : String → String → Bool, (∀ m ∈ (resolve g ⟨memberships, subject⟩).held,
        keeps m.contextName m.contextKey = true) →
      KeepsHeld g subject memberships
        (memberships.filter fun m => keeps m.contextName m.contextKey)) := by
  refine ⟨fun kept hkept => ⟨hkept.resolve_eq, ?_⟩, ?_, ?_, fun keeps hkeeps => .of_filter hkeeps⟩
  · intro e hgraph given given' shown hread hread'
    subst hgraph
    refine sameAnswers_of_query_eq ?_
    simp only [query, hread, hread', hkept.resolve_eq]
  · intro kept hkept
    exact .of_lastOn_eq fun context key => by rw [lastOn, lastOn, hkept]
  · intro before m after hsplit hlater
    obtain ⟨later, hlater, hon⟩ := hlater
    subst hsplit
    exact .of_lastOn_eq (Membership.lastOn_dropEarlier hlater hon)

/-- An admin of two organizations who was only a guest of one of them before. -/
def adminMemberships : List Membership :=
  [⟨"org", "o1", some "guest", []⟩, ⟨"org", "o1", some "admin", []⟩,
    ⟨"org", "o2", some "admin", []⟩]

/-- The admin reads the course just the same by the one membership that counts. -/
theorem decisions_rest_on_held_admin :
    let e := (({} : Session).after schoolCommands).engine
    let subject := schoolResolution.subject
    let kept := schoolResolution.chain
    let given := Value.list (adminMemberships.map (Membership.toValue .names))
    let given' := Value.list (kept.map (Membership.toValue .names))
    KeepsHeld e.graph subject adminMemberships kept ∧
      resolve e.graph ⟨kept, subject⟩ = resolve e.graph ⟨adminMemberships, subject⟩ ∧
      (isAllowed e given (.text "read") subject.toValue).value = true ∧
      (isAllowed e given' (.text "read") subject.toValue).value = true := by
  intro e subject kept given given'
  have hkeeps : KeepsHeld e.graph subject adminMemberships kept := by decide +kernel
  have hread : readInput e given subject.toValue = .ok ⟨adminMemberships, subject⟩ := by rfl
  have hread' : readInput e given' subject.toValue = .ok ⟨kept, subject⟩ := by rfl
  have hallowed : (isAllowed e given (.text "read") subject.toValue).value = true := by
    decide +kernel
  obtain ⟨hheld, -, -, -⟩ := decisions_rest_on_held e.graph subject adminMemberships
  obtain ⟨hresolve, hanswers⟩ := hheld kept hkeeps
  obtain ⟨hsame, -⟩ := hanswers e rfl given given' subject.toValue hread hread'
  refine ⟨hkeeps, hresolve, hallowed, ?_⟩
  rw [(hsame (.text "read")).1]
  exact hallowed

end Evaluation

end AccessMatrix
