import AccessMatrix.Proofs.Policy.Acceptance
import AccessMatrix.Proofs.Session.History

/-!
# Recording declarations

A request that is accepted and a setter that is called come to the same: a declaration is recorded in a
round, with a warning if it comes after another one on its slot. How the role of a declaration is spelled
shows in the warning only.
-/

namespace AccessMatrix

open Outcome

namespace Policy

/-- Two declarations that differ at most in the spelling of the role. -/
structure Declaration.SameTexts (d d' : Declaration) : Prop where
  context : d.context = d'.context
  role : d.role.text = d'.role.text
  subject : d.subject = d'.subject
  scope : d.scope = d'.scope
  actions : d.actions = d'.actions

/-- A round holds the same of declarations that differ in the spelling of the role. -/
theorem Round.add_congr {d d' : Declaration} (h : d.SameTexts d') (round : Round) :
    (round.add d).1 = (round.add d').1 := by
  obtain ⟨context, role, subject, scope, actions⟩ := d
  obtain ⟨context', role', subject', scope', actions'⟩ := d'
  obtain ⟨rfl, hrole, rfl, rfl, rfl⟩ := h
  change role.text = role'.text at hrole
  cases scope with
  | every =>
    by_cases hself : context.text = subject.text
    · simp only [add, if_pos hself, addSelf, LabelledSlot.slot, hrole, Option.map_some]
    · by_cases hknown : round.broad.has (context.text, role'.text, subject.text) = true <;>
        simp [add, hself, addBroad, hrole, hknown]
  | only subjectRole =>
    by_cases hknown :
      round.explicit.has ⟨context.text, role'.text, subject.text, subjectRole.map Name.text⟩ = true <;>
      simp [add, addExplicit, LabelledSlot.slot, hrole, hknown]

end Policy

namespace Session

open Policy (Compiler Declaration Round RoundId Setter Request)

/-- The session after a declaration is recorded in a round. -/
def recordIn (s : Session) (id : RoundId) (d : Declaration) : Session :=
  let (c, warning?) := s.engine.compiler.record id d
  (s.withCompiler c).warn warning?

/-- The session after declarations are recorded in a round one after the other. -/
def recordAllIn (s : Session) (id : RoundId) (ds : List Declaration) : Session :=
  ds.foldl (fun s d => s.recordIn id d) s

/-- The session with another round as the current one. -/
def withCurrent (s : Session) (id : RoundId) : Session :=
  s.withCompiler { s.engine.compiler with current := id }

/-- A call of the setter of a policy records what the call declares. -/
theorem callSetter_policy (s : Session) (id : RoundId) (context role subject : Name)
    (value? : Option Value) (named : Value) :
    s.callSetter (.policy id context role subject) value? named =
      (Setter.declaration context role subject value? named).map (s.recordIn id) := by
  rw [callSetter, Setter.call]
  cases Setter.declaration context role subject value? named <;> rfl

/-- A reference to a registered entity makes nothing known. -/
theorem mention_of_means {s : Session} {ref : Ref} {e : Entity} (hg : s.engine.graph.names.Nodup)
    (h : ref.Means s.engine.graph e) : s.mention ref = .ok s := by
  obtain ⟨he, rfl | ⟨v, rfl, -⟩⟩ := h
  · rw [mention, (Graph.find?_eq_some_iff hg).mpr ⟨he, rfl⟩]
  · rfl

/-- A request that is accepted records in the current round what it declares. -/
theorem run_declare {s : Session} (hg : s.engine.graph.names.Nodup) {r : Request} {d : Declaration}
    (h : r.check s.engine.graph = .ok d) :
    (Step.declare r).run s = (.ok .done, s.recordIn s.engine.compiler.current d) := by
  obtain ⟨context, subject, hvalid, -⟩ := (Request.check_eq_ok_iff hg).mp h
  have hmention : s.mentionAll (Step.declare r).mentions = (.ok (), s) := by
    simp only [Step.mentions, mentionAll, mention_of_means hg hvalid.context_means,
      mention_of_means hg hvalid.subject_means]
  rw [Step.run, hmention]
  simp only [Step.perform, h]
  rfl

/-- Recording leaves the graph, the visits and the views as they are. -/
theorem rest_recordAllIn (s : Session) (id : RoundId) (ds : List Declaration) :
    let last := s.recordAllIn id ds
    last.engine.graph = s.engine.graph ∧ last.engine.compiler.current = s.engine.compiler.current ∧
      last.visits = s.visits ∧ last.views = s.views := by
  induction ds generalizing s with
  | nil => exact ⟨rfl, rfl, rfl, rfl⟩
  | cons d rest ih => exact ih (s.recordIn id d)

theorem recordAllIn_append (s : Session) (id : RoundId) (ds ds' : List Declaration) :
    s.recordAllIn id (ds ++ ds') = (s.recordAllIn id ds).recordAllIn id ds' := by
  rw [recordAllIn, recordAllIn, recordAllIn, List.foldl_append]

/-- Visits that are counted in between make no difference to what is recorded. -/
theorem recordAllIn_visits (s : Session) (visits : Nat) (id : RoundId) (ds : List Declaration) :
    ({ s with visits } : Session).recordAllIn id ds = { s.recordAllIn id ds with visits } := by
  induction ds generalizing s with
  | nil => rfl
  | cons d rest ih => exact ih (s.recordIn id d)

/-- Which round is the current one makes no difference to what is recorded in a round. -/
theorem recordAllIn_withCurrent (s : Session) (current id : RoundId) (ds : List Declaration) :
    (s.withCurrent current).recordAllIn id ds = (s.recordAllIn id ds).withCurrent current := by
  induction ds generalizing s with
  | nil => rfl
  | cons d rest ih => exact ih (s.recordIn id d)

/-- Declarations that differ in the spelling of roles leave the same engine. -/
theorem engine_recordAllIn {s t : Session} (h : s.engine = t.engine) (id : RoundId)
    {ds ds' : List Declaration} (hds : List.Forall₂ Declaration.SameTexts ds ds') :
    (s.recordAllIn id ds).engine = (t.recordAllIn id ds').engine := by
  induction hds generalizing s t with
  | nil => exact h
  | @cons d d' rest rest' hd _ ih =>
    refine ih (s := s.recordIn id d) (t := t.recordIn id d') ?_
    change { s.engine with compiler := (s.engine.compiler.record id d).1 } =
      { t.engine with compiler := (t.engine.compiler.record id d').1 }
    simp only [h, Compiler.record, Round.add_congr hd]

/-- Requests that are accepted one after the other record what they declare. -/
theorem after_declares {s : Session} (hg : s.engine.graph.names.Nodup) {requests : List Request}
    {ds : List Declaration}
    (h : List.Forall₂ (fun r d => r.check s.engine.graph = .ok d) requests ds) :
    s.after (requests.map fun r => .step (.declare r)) =
      s.recordAllIn s.engine.compiler.current ds := by
  generalize hgraph : s.engine.graph = g at hg h
  induction h generalizing s with
  | nil => rfl
  | @cons r d rest rest' hr _ ih =>
    subst hgraph
    have hfirst : (Command.run (.step (.declare r)) s).2.2 =
        s.recordIn s.engine.compiler.current d := by
      rw [Command.run, run_declare hg hr]
    rw [List.map_cons, after, List.foldl_cons, hfirst]
    exact ih rfl

end Session

end AccessMatrix
