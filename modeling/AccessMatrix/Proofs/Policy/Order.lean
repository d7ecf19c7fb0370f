import AccessMatrix.Evaluation.Decision
import AccessMatrix.Proofs.Policy.Index
import Mathlib.Data.List.Forall2

/-!
# The order of declarations

Of the declarations of a round only those compete that address the same place. The order of the
others does not matter: rearranged, they compile to the same matrix. One thing the order does decide.
An action that was named both by a text and by a level stands in the keys of the index as it was named
first, and what a query finds there depends on it.
-/

namespace AccessMatrix.Policy

/-- What a declaration addresses: a role over a subject, or one slot of the matrix. -/
inductive Address where
  | unscoped (context role subject : String)
  | explicit (slot : Slot)
  deriving DecidableEq, Repr

/-- The address of a declaration. -/
def Declaration.address (d : Declaration) : Address :=
  match d.scope with
  | .every => .unscoped d.context.text d.role.text d.subject.text
  | .only subjectRole => .explicit (LabelledSlot.slot ⟨d.context, d.role, d.subject, subjectRole⟩)

theorem Declaration.isUnscoped_iff_address {context role subject : String} {d : Declaration} :
    d.isUnscoped context role subject = true ↔ d.address = .unscoped context role subject := by
  rw [isUnscoped_iff, address]
  cases d.scope <;> simp

theorem Declaration.isExplicit_iff_address {slot : Slot} {d : Declaration} :
    d.isExplicit slot = true ↔ d.address = .explicit slot := by
  rw [isExplicit, address]
  cases d.scope <;> simp

theorem firstActions_congr {kind : Declaration → Bool} {ds ds' : List Declaration}
    (h : ds.filter kind = ds'.filter kind) : firstActions kind ds = firstActions kind ds' := by
  rw [firstActions, firstActions, ← List.head?_filter, ← List.head?_filter, h]

theorem lastActions_congr {kind : Declaration → Bool} {ds ds' : List Declaration}
    (h : ds.filter kind = ds'.filter kind) : lastActions kind ds = lastActions kind ds' :=
  firstActions_congr (by rw [List.filter_reverse, List.filter_reverse, h])

/-- The names of actions as declarations mention them, one after the other. -/
def mentions (ds : List Declaration) : List Name := ds.flatMap fun d => d.actions.map Prod.fst

/-- The name that an action is first mentioned by. -/
def firstMention (ds : List Declaration) (action : String) : Option Name :=
  (mentions ds).find? fun name => name.text = action

/-- Declarations in another order, which is the old one among those with the same address. -/
structure Rearranged (ds ds' : List Declaration) : Prop where
  perm : ds.Perm ds'
  kept : ∀ address, (ds.filter fun d => d.address = address) =
    ds'.filter fun d => d.address = address

/-- Only the addresses of the declarations have to be looked at. -/
theorem rearranged_iff {ds ds' : List Declaration} :
    Rearranged ds ds' ↔ ds.Perm ds' ∧ ∀ address ∈ ds.map Declaration.address,
      (ds.filter fun d => d.address = address) = ds'.filter fun d => d.address = address := by
  constructor
  · intro h
    exact ⟨h.perm, fun address _ => h.kept address⟩
  · intro h
    obtain ⟨hperm, hkept⟩ := h
    refine ⟨hperm, fun address => ?_⟩
    by_cases haddress : address ∈ ds.map Declaration.address
    · exact hkept address haddress
    · -- nothing has this address, before or after
      have hnone (d : Declaration) (hd : d ∈ ds) : ¬ d.address = address :=
        fun heq => haddress (List.mem_map.mpr ⟨d, hd, heq⟩)
      rw [List.filter_eq_nil_iff.mpr (by simpa using hnone),
        List.filter_eq_nil_iff.mpr (by simpa [hperm.mem_iff.symm] using hnone)]

instance (ds ds' : List Declaration) : Decidable (Rearranged ds ds') :=
  decidable_of_iff _ rearranged_iff.symm

namespace Round

/-- Where no two keys cover a slot, tables that hold the same fill it alike. -/
theorem find?_covering_congr {κ : Type} [DecidableEq κ] {slotsOf : κ → List Slot} {slot : Slot}
    (hunique : ∀ key other, slot ∈ slotsOf key → slot ∈ slotsOf other → key = other)
    {table table' : Table κ Actions} (h : ∀ key, table.get? key = table'.get? key) :
    (table.find? fun entry => slot ∈ slotsOf entry.1).map (·.2) =
      (table'.find? fun entry => slot ∈ slotsOf entry.1).map (·.2) := by
  by_cases hcovered : ∃ key, slot ∈ slotsOf key
  · obtain ⟨key, hkey⟩ := hcovered
    have hcover (other : κ) : slot ∈ slotsOf other ↔ other = key :=
      ⟨fun hother => hunique other key hother hkey, fun heq => heq ▸ hkey⟩
    rw [find?_covering hcover, find?_covering hcover, h]
  · have hcover (other : κ) : slot ∉ slotsOf other := fun hother => hcovered ⟨other, hother⟩
    rw [find?_uncovered hcover, find?_uncovered hcover]

/-- No two broad declarations cover a slot. -/
theorem broadSlots_unique {g : Graph} {slot : Slot} {key other : String × String × String}
    (hkey : slot ∈ broadSlots g key) (hother : slot ∈ broadSlots g other) : key = other :=
  (mem_broadSlots.mp hkey).1.trans (mem_broadSlots.mp hother).1.symm

/-- No two self-policies cover a slot. -/
theorem selfSlots_unique {g : Graph} {slot : Slot} {key other : String × String}
    (hkey : slot ∈ selfSlots g key) (hother : slot ∈ selfSlots g other) : key = other := by
  -- one covers its own slot for no role on the subject, and those of contexts above for a role
  rcases mem_selfSlots.mp hkey with ⟨hsubject, hrole, -⟩ | hown
  · rcases mem_selfSlots.mp hother with ⟨hsubject', hrole', -⟩ | hown'
    · exact Prod.ext (hsubject.trans hsubject'.symm) (Option.some.inj (hrole.trans hrole'.symm))
    · simp [hown'] at hrole
  · rcases mem_selfSlots.mp hother with ⟨-, hrole', -⟩ | hown'
    · simp [hown] at hrole'
    · rw [hown, Slot.mk.injEq] at hown'
      exact Prod.ext hown'.1 hown'.2.1

/-- Rounds whose tiers hold the same resolve alike. -/
theorem resolve_congr {round round' : Round}
    (hexplicit : ∀ slot, round.explicit.get? slot = round'.explicit.get? slot)
    (hbroad : ∀ key, round.broad.get? key = round'.broad.get? key)
    (hself : ∀ key, round.selfPolicies.get? key = round'.selfPolicies.get? key) (g : Graph)
    (slot : Slot) : (round.resolve g).get? slot = (round'.resolve g).get? slot := by
  simp only [resolve, get?_foldl_fillSlots, hexplicit]
  rw [find?_covering_congr (fun _ _ => broadSlots_unique) hbroad,
    find?_covering_congr (fun _ _ => selfSlots_unique) hself]

/-- A round knows every action by its first mention. -/
theorem find?_actions_ofDeclarations (ds : List Declaration) (action : String) :
    ((ofDeclarations ds).actions.find? fun name => name.text = action) = firstMention ds action := by
  induction ds using List.reverseRecOn with
  | nil => rfl
  | append_singleton ds d ih =>
    rw [ofDeclarations_concat, actions_add, noteActions, find?_eraseDupsBy, List.find?_append, ih,
      firstMention, firstMention, mentions, mentions, List.flatMap_append, List.find?_append]
    simp

theorem mem_actions_ofDeclarations {ds : List Declaration} {action : Name} :
    action ∈ (ofDeclarations ds).actions ↔ firstMention ds action.text = some action := by
  rw [← find?_actions_ofDeclarations]
  exact ⟨find?_eq_some_of_nodup (nodup_actions_ofDeclarations ds), List.mem_of_find?_eq_some⟩

end Round

namespace Rearranged

variable {ds ds' : List Declaration}

/-- Declarations of a kind that has one address come in the same order. -/
theorem filter_eq (h : Rearranged ds ds') {kind : Declaration → Bool} {address : Address}
    (hkind : ∀ d : Declaration, kind d = true ↔ d.address = address) :
    ds.filter kind = ds'.filter kind := by
  have haddress : kind = fun d => decide (d.address = address) := by
    funext d
    rw [Bool.eq_iff_iff, hkind, decide_eq_true_iff]
  rw [haddress]
  exact h.kept address

/-- The declarations of a context on itself that set a cell come in the same order. -/
theorem filter_isSelf_eq (h : Rearranged ds ds') (slot : Slot) :
    ds.filter (Declaration.isSelf slot) = ds'.filter (Declaration.isSelf slot) := by
  by_cases hown : slot.subject = slot.context ∧ slot.subjectRole = some slot.role
  · have hkind (d : Declaration) : d.isSelf slot = true ↔
        d.address = .unscoped slot.context slot.role slot.subject := by
      rw [Declaration.isSelf_iff, and_iff_right hown.1, and_iff_right hown.2,
        Declaration.isUnscoped_iff_address]
    exact h.filter_eq hkind
  · have hnone (d : Declaration) : ¬ d.isSelf slot = true := by
      rw [Declaration.isSelf_iff]
      exact fun hself => hown ⟨hself.1, hself.2.1⟩
    rw [List.filter_eq_nil_iff.mpr fun d _ => hnone d, List.filter_eq_nil_iff.mpr fun d _ => hnone d]

/-- Rearranged declarations resolve to the same actions in every slot. -/
theorem get?_resolve_eq (h : Rearranged ds ds') (g : Graph) (slot : Slot) :
    ((Round.ofDeclarations ds).resolve g).get? slot =
      ((Round.ofDeclarations ds').resolve g).get? slot := by
  have hunscoped (context role subject : String) :
      firstActions (Declaration.isUnscoped context role subject) ds =
        firstActions (Declaration.isUnscoped context role subject) ds' :=
    firstActions_congr (h.filter_eq fun _ => Declaration.isUnscoped_iff_address)
  refine Round.resolve_congr (fun slot => ?_) (fun key => ?_) (fun key => ?_) g slot
  · rw [Round.explicit_ofDeclarations, Round.explicit_ofDeclarations,
      lastActions_congr (h.filter_isSelf_eq slot),
      firstActions_congr (h.filter_eq fun _ => Declaration.isExplicit_iff_address)]
  · obtain ⟨context, role, subject⟩ := key
    rw [Round.broad_ofDeclarations, Round.broad_ofDeclarations, hunscoped]
  · obtain ⟨context, role⟩ := key
    rw [Round.selfPolicies_ofDeclarations, Round.selfPolicies_ofDeclarations, hunscoped]

/-- Rearranged declarations mention the same actions. -/
theorem actions_perm (h : Rearranged ds ds') :
    ((Round.ofDeclarations ds).actions.map Name.text).Perm
      ((Round.ofDeclarations ds').actions.map Name.text) := by
  refine (List.perm_ext_iff_of_nodup (Round.nodup_actions_ofDeclarations ds)
    (Round.nodup_actions_ofDeclarations ds')).mpr fun action => ?_
  rw [Round.actions_ofDeclarations, Round.actions_ofDeclarations, List.mem_eraseDups,
    List.mem_eraseDups]
  exact (h.perm.flatMap_right _).mem_iff

/-- Where actions are first mentioned by the same names, a round knows them by the same names. -/
theorem mem_actions_iff (h : Rearranged ds ds')
    (hmentions : ∀ action ∈ mentions ds, firstMention ds action.text = firstMention ds' action.text)
    (action : Name) :
    action ∈ (Round.ofDeclarations ds).actions ↔ action ∈ (Round.ofDeclarations ds').actions := by
  rw [Round.mem_actions_ofDeclarations, Round.mem_actions_ofDeclarations]
  constructor
  · intro hfirst
    rw [← hmentions action (List.mem_of_find?_eq_some hfirst)]
    exact hfirst
  · intro hfirst
    have hmem : action ∈ mentions ds' := List.mem_of_find?_eq_some hfirst
    rw [hmentions action ((h.perm.flatMap_right _).mem_iff.mpr hmem)]
    exact hfirst

end Rearranged

namespace Snapshot

/-- What an index holds under a key are different keys, and at least one. -/
theorem entry_of_index {grants : List (String × String)} {shown : String} {keys : List String}
    (h : (index grants).get? shown = some keys) : keys.Nodup ∧ keys ≠ [] := by
  induction grants using List.reverseRecOn generalizing keys with
  | nil => exact absurd h (by simp [index, Table.get?_nil])
  | append_singleton grants grant ih =>
    have hconcat : index (grants ++ [grant]) = allow (index grants) grant := by simp [index]
    rw [hconcat, allow] at h
    split at h
    · exact ih h
    · rename_i hfresh
      rw [Table.get?_put] at h
      split at h
      · obtain rfl := Option.some.inj h
        refine ⟨?_, by simp⟩
        rw [← List.concat_eq_append, List.nodup_concat]
        refine ⟨hfresh, ?_⟩
        cases hkeys : (index grants).get? grant.1 with
        | none => exact List.nodup_nil
        | some keys =>
          rename_i hshown
          exact (ih (hshown ▸ hkeys)).1
      · exact ih h

/-- Indices that hold the same keys under a key hold them in the same entry, but for their order. -/
theorem get?_index_congr {grants grants' : List (String × String)} {shown : String}
    (h : ∀ key, key ∈ ((index grants).get? shown).getD [] ↔
      key ∈ ((index grants').get? shown).getD []) :
    Option.Rel List.Perm ((index grants).get? shown) ((index grants').get? shown) := by
  cases hkeys : (index grants).get? shown with
  | none =>
    cases hkeys' : (index grants').get? shown with
    | none => exact .none
    | some keys' =>
      obtain ⟨key, hkey⟩ := List.exists_mem_of_ne_nil _ (entry_of_index hkeys').2
      simp only [hkeys, hkeys', Option.getD_none, Option.getD_some] at h
      exact absurd ((h key).mpr hkey) List.not_mem_nil
  | some keys =>
    cases hkeys' : (index grants').get? shown with
    | none =>
      obtain ⟨key, hkey⟩ := List.exists_mem_of_ne_nil _ (entry_of_index hkeys).2
      simp only [hkeys, hkeys', Option.getD_none, Option.getD_some] at h
      exact absurd ((h key).mp hkey) List.not_mem_nil
    | some keys' =>
      simp only [hkeys, hkeys', Option.getD_some] at h
      exact .some ((List.perm_ext_iff_of_nodup (entry_of_index hkeys).1
        (entry_of_index hkeys').1).mpr h)

/-- Two snapshots with the same matrix: the same actions, the same declared actions in every slot, and
the same cells in the same order, each with the same actions. Actions may come in another order. -/
structure SameMatrix (s s' : Snapshot) : Prop where
  actions : (s.actions.map Name.text).Perm (s'.actions.map Name.text)
  defined : ∀ slot, s.defined.get? slot = s'.defined.get? slot
  cells : List.Forall₂ (fun cell cell' => cell.slot = cell'.slot ∧ cell.actions.Perm cell'.actions)
    s.cells s'.cells

/-- Two snapshots with the same index: entries under the same keys, each with the same keys in any
order. -/
def SameIndex (s s' : Snapshot) : Prop :=
  ∀ shown, Option.Rel List.Perm (s.allowance.get? shown) (s'.allowance.get? shown)

/-- What is found in the same index is the same. -/
theorem SameIndex.keysFor_perm {s s' : Snapshot} (h : SameIndex s s') (shown : String) :
    (s.keysFor shown).Perm (s'.keysFor shown) := by
  have hentry := h shown
  rw [keysFor, keysFor]
  generalize s.allowance.get? shown = entry, s'.allowance.get? shown = entry' at hentry ⊢
  cases hentry with
  | some hkeys => exact hkeys
  | none => exact .refl _

/-- Rearranged declarations compile to the same matrix. -/
theorem sameMatrix_of_rearranged {ds ds' : List Declaration} (h : Rearranged ds ds') (g : Graph) :
    SameMatrix (compile g (.ofDeclarations ds)) (compile g (.ofDeclarations ds')) where
  actions := h.actions_perm
  defined := h.get?_resolve_eq g
  cells := by
    simp only [compile, List.forall₂_map_left_iff, List.forall₂_map_right_iff, List.forall₂_same]
    refine fun place _ => ⟨rfl, ?_⟩
    have hallows : allows ((Round.ofDeclarations ds).resolve g) place.slot =
        allows ((Round.ofDeclarations ds').resolve g) place.slot := by
      funext action
      rw [allows, allows, h.get?_resolve_eq]
    have hentries := h.actions_perm.map fun action =>
      (action, allows ((Round.ofDeclarations ds').resolve g) place.slot action)
    rw [List.map_map, List.map_map] at hentries
    simp only [cellOf, hallows]
    exact hentries

/-- Rearranged declarations that mention every action first by the same name compile to the same
index. -/
theorem sameIndex_of_rearranged {ds ds' : List Declaration} (h : Rearranged ds ds')
    (hmentions : ∀ action ∈ mentions ds, firstMention ds action.text = firstMention ds' action.text)
    (g : Graph) : SameIndex (compile g (.ofDeclarations ds)) (compile g (.ofDeclarations ds')) := by
  refine fun shown => get?_index_congr fun key => ?_
  have hkeys : key ∈ (compile g (.ofDeclarations ds)).keysFor shown ↔
      key ∈ (compile g (.ofDeclarations ds')).keysFor shown := by
    simp only [mem_keysFor_compile, h.mem_actions_iff hmentions, allows, h.get?_resolve_eq]
  exact hkeys

end Snapshot

open Evaluation (isAllowed explain query)

/-- Queries are answered alike over the same index. -/
theorem isAllowed_congr (e : Engine) {c c' : Compiler}
    (h : Snapshot.SameIndex c.published c'.published) (memberships action subject : Value) :
    isAllowed { e with compiler := c } memberships action subject =
      isAllowed { e with compiler := c' } memberships action subject := by
  have hquery : query { e with compiler := c } memberships subject =
      query { e with compiler := c' } memberships subject := rfl
  have hallowed (r : Evaluation.Resolution) (name : Name) :
      (Evaluation.decide c.published r name).allowed =
        (Evaluation.decide c'.published r name).allowed := by
    have hgranting := (h.keysFor_perm (actionKey r.subject.name name.display)).filter
      r.accessKeys.contains
    simp only [Evaluation.decide, hgranting.isEmpty_eq]
  simp only [isAllowed, explain, hquery]
  cases (query { e with compiler := c' } memberships subject).value with
  | none => rfl
  | some r =>
    cases Name.ofValue? action with
    | none => rfl
    | some name =>
      simp only [Evaluation.decisionRecord, hallowed]
      rfl

/-- An action that no other name is mentioned for is first mentioned by its own. -/
theorem firstMention_of_mem {ds : List Declaration} {action : Name} (hmem : action ∈ mentions ds)
    (hunique : ∀ other ∈ mentions ds, other.text = action.text → other = action) :
    firstMention ds action.text = some action := by
  cases hfirst : firstMention ds action.text with
  | none => exact absurd (List.find?_eq_none.mp hfirst action hmem) (by simp)
  | some other =>
    have htext : other.text = action.text := by simpa using List.find?_some hfirst
    rw [hunique other (List.mem_of_find?_eq_some hfirst) htext]

/-- The order of declarations does not matter but for those with the same address. On every graph,
rearranged declarations build the same matrix. If every action is first mentioned by the same name,
they build the same index as well, and whatever is asked of an engine is answered alike over both. This
is so whenever no action is mentioned by two names. -/
theorem build_ignores_order {ds ds' : List Declaration} (h : Rearranged ds ds') (g : Graph)
    (c c' : Compiler) :
    let built := (c.clear.recordAll ds).build g
    let built' := (c'.clear.recordAll ds').build g
    Snapshot.SameMatrix built.published built'.published ∧
      ((∀ action ∈ mentions ds, firstMention ds action.text = firstMention ds' action.text) →
        Snapshot.SameIndex built.published built'.published ∧
          ∀ (e : Engine) (memberships action subject : Value),
            isAllowed { e with compiler := built } memberships action subject =
              isAllowed { e with compiler := built' } memberships action subject) ∧
      ((∀ action ∈ mentions ds, ∀ other ∈ mentions ds, other.text = action.text → other = action) →
        ∀ action ∈ mentions ds, firstMention ds action.text = firstMention ds' action.text) := by
  intro built built'
  have hbuilt : built.published = .compile g (.ofDeclarations ds) :=
    congrArg (Snapshot.compile g) (Compiler.round_recordAll_clear c ds)
  have hbuilt' : built'.published = .compile g (.ofDeclarations ds') :=
    congrArg (Snapshot.compile g) (Compiler.round_recordAll_clear c' ds')
  refine ⟨?_, fun hmentions => ?_, fun hunique action haction => ?_⟩
  · rw [hbuilt, hbuilt']
    exact Snapshot.sameMatrix_of_rearranged h g
  · have hindex : Snapshot.SameIndex built.published built'.published := by
      rw [hbuilt, hbuilt']
      exact Snapshot.sameIndex_of_rearranged h hmentions g
    exact ⟨hindex, fun e => isAllowed_congr e hindex⟩
  · have hmem {other : Name} : other ∈ mentions ds ↔ other ∈ mentions ds' :=
      (h.perm.flatMap_right _).mem_iff
    rw [firstMention_of_mem haction (hunique action haction),
      firstMention_of_mem (hmem.mp haction) fun other hother =>
        hunique action haction other (hmem.mpr hother)]

/-- Declarations over a course in all three tiers. -/
def tieredDeclarations : List Declaration :=
  [staffDeclaration,
    { context := .plain "org", role := .plain "admin", subject := .plain "course",
      actions := [(.plain "read", false), (.plain "update", true)] },
    { context := .plain "org", role := .plain "admin", subject := .plain "course",
      scope := .only (some (.plain "staff")), actions := [(.plain "read", true)] }]

/-- An admin of an organization above a course may update the course in whatever order the tiers were
declared. -/
theorem build_ignores_order_school :
    let g := (Graph.registerAll {} schoolRegistrations).getD {}
    let built := (Compiler.recordAll (Compiler.clear {}) tieredDeclarations).build g
    let built' := (Compiler.recordAll (Compiler.clear {}) tieredDeclarations.reverse).build g
    let memberships := Value.list [(⟨"org", "o1", some "admin", []⟩ : Membership).toValue .names]
    let subject := (⟨"course", "c1", [("org", some "o1")]⟩ : Subject).toValue
    Rearranged tieredDeclarations tieredDeclarations.reverse ∧
      Snapshot.SameMatrix built.published built'.published ∧
      (isAllowed { graph := g, compiler := built } memberships (.text "update") subject).value =
        true ∧
      (isAllowed { graph := g, compiler := built' } memberships (.text "update") subject).value =
        true := by
  intro g built built' memberships subject
  have h : Rearranged tieredDeclarations tieredDeclarations.reverse := by decide +kernel
  obtain ⟨hmatrix, hqueries, hmentions⟩ := build_ignores_order h g {} {}
  have hsame := (hqueries (hmentions (by decide +kernel))).2 { graph := g } memberships
    (.text "update") subject
  have hallowed : (isAllowed { graph := g, compiler := built } memberships (.text "update")
      subject).value = true := by
    decide +kernel
  exact ⟨h, hmatrix, hallowed, hsame ▸ hallowed⟩

/-- A request of an organization for one of its roles to have an action on itself, which is named in
any way. -/
def ownRequest (role : String) (action : Name) : Request where
  context := .own "org"
  role := .text role
  subject := .own "org"
  actions := .mapping [(action.toValue, .bool true)]

/-- Two accepted declarations for different roles, of which one names its action by a text and the other
one by a level. An admin may do the action if the first one came first, and not otherwise. -/
theorem mention_order_matters :
    let g := (Graph.registerAll {}
      [{ kind := .context, name := .text "org", roles := .ofTexts ["admin", "staff"] }]).getD {}
    let requests := [ownRequest "admin" (.plain "INFO"), ownRequest "staff" (.level .info)]
    let ds := ((requests.mapM (Request.check g)).toOption).getD []
    let built := (Compiler.recordAll (Compiler.clear {}) ds).build g
    let built' := (Compiler.recordAll (Compiler.clear {}) ds.reverse).build g
    let memberships := Value.list [(⟨"org", "o1", some "admin", []⟩ : Membership).toValue .names]
    let subject := (⟨"org", "o1", []⟩ : Subject).toValue
    ds.length = 2 ∧ Rearranged ds ds.reverse ∧
      (isAllowed { graph := g, compiler := built } memberships (.text "INFO") subject).value =
        true ∧
      (isAllowed { graph := g, compiler := built' } memberships (.text "INFO") subject).value =
        false := by
  decide +kernel

end AccessMatrix.Policy
