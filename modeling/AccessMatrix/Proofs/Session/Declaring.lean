import AccessMatrix.Proofs.Policy.Acceptance
import AccessMatrix.Proofs.Session.Configuration
import AccessMatrix.Proofs.Session.Reached

/-!
# Declaring in a session

A declaration looks up its references and checks its request before it records anything. So it is made
as a whole or not at all, and of the references, roles, actions and scopes that can be given it accepts
exactly the valid ones.
-/

namespace AccessMatrix

open Outcome

/-- An entity of another graph can be registered there under any name that is not taken there. -/
theorem Graph.register_stranger (g : Graph) {name : String} (hnamed : name ≠ "")
    (hfresh : g.has name = false) :
    ∃ result, g.register { kind := .context, name := .text name, roles := Session.strangerRole } =
      .ok result := by
  have hlabel : (Value.text name).asName? = some (.plain name) := by
    simp [Value.asName?, Name.ofValue?, Name.text, hnamed]
  have hfree : g.has (Name.plain name).text = false := hfresh
  let d : Draft := ⟨.context, .plain name, [.plain "admin"], []⟩
  have hdraft : g.draft { kind := .context, name := .text name, roles := Session.strangerRole } =
      .ok d := by
    unfold draft
    rw [hlabel]
    simp only [hfree]
    rfl
  refine ⟨(g.link (g.derive d []), g.derive d []), ?_⟩
  rw [register, hdraft]
  rfl

namespace Session

open Policy (Round Request Declaration)

/-- A reference that can be given is found or makes itself known, and the engine stays as it is. -/
theorem mention_of_given {s : Session} {ref : Ref} (h : ref.Given s.engine.graph) :
    ∃ next, s.mention ref = .ok next ∧ next.engine = s.engine := by
  cases h with
  | own name h =>
    obtain ⟨e, he⟩ := Option.isSome_iff_exists.mp (Graph.find?_isSome_iff.mpr h)
    exact ⟨s, by rw [mention, he], rfl⟩
  | foreign name h =>
    cases hknown : s.elsewhere.has name with
    | true => exact ⟨s, by rw [mention, if_pos hknown], rfl⟩
    | false =>
      obtain ⟨⟨g, e⟩, hregister⟩ := s.elsewhere.register_stranger h hknown
      refine ⟨{ s with elsewhere := g }.log [registered g e], ?_, rfl⟩
      rw [mention, if_neg (by simp [hknown]), hregister]
      rfl
  | value v name h => exact ⟨s, rfl, rfl⟩

/-- References that can be given are all looked up, and the engine stays as it is. -/
theorem mentionAll_of_given {s : Session} {refs : List Ref}
    (h : ∀ ref ∈ refs, ref.Given s.engine.graph) :
    ∃ next, s.mentionAll refs = (.ok (), next) ∧ next.engine = s.engine := by
  induction refs generalizing s with
  | nil => exact ⟨s, rfl, rfl⟩
  | cons ref rest ih =>
    obtain ⟨href, hrest⟩ := List.forall_mem_cons.mp h
    obtain ⟨found, hfound, hengine⟩ := mention_of_given href
    obtain ⟨next, hnext, hsame⟩ := ih (s := found) (by rwa [hengine])
    refine ⟨next, ?_, hsame.trans hengine⟩
    rw [mentionAll, hfound]
    exact hnext

/-- A declaration does what the check of its request says, if its references can be given. -/
theorem declare_cases {s : Session} {r : Request} (hcontext : r.context.Given s.engine.graph)
    (hsubject : r.subject.Given s.engine.graph) :
    let ran := (Step.declare r).run s
    (∃ e, r.check s.engine.graph = .error e ∧ ran.1 = .error e.raised ∧ ran.2.world = s.world) ∨
      ∃ d, r.check s.engine.graph = .ok d ∧ ran.1 = .ok .done ∧
        ran.2.world = s.world.apply (.declare d) := by
  intro ran
  have hgiven : ∀ ref ∈ [r.context, r.subject], ref.Given s.engine.graph := by
    simp [hcontext, hsubject]
  obtain ⟨next, hmention, hengine⟩ := mentionAll_of_given hgiven
  have hran : ran = (Step.declare r).run s := rfl
  unfold Step.run at hran
  simp only [Step.mentions, hmention, Step.perform, hengine] at hran
  cases hcheck : r.check s.engine.graph with
  | error e =>
    rw [hcheck] at hran
    change ran = (.error e.raised, next) at hran
    refine .inl ⟨e, rfl, congrArg Prod.fst hran, ?_⟩
    rw [hran, world, world, hengine]
  | ok d =>
    rw [hcheck] at hran
    refine .inr ⟨d, rfl, congrArg Prod.fst hran, ?_⟩
    rw [hran]
    have hgraph : next.engine.graph = s.engine.graph := congrArg Engine.graph hengine
    exact congrArg (fun g => World.mk g (s.engine.compiler.record _ d).1) hgraph

/-- A declaration is added to the current round and changes nothing else. -/
theorem World.declarations_declare {w : World} (h : w.Begun) (d : Declaration) :
    (w.apply (.declare d)).declarations = (w.declarations.add d).1 ∧
      World.AgreeOutside w.compiler.current w (w.apply (.declare d)) := by
  refine ⟨?_, (World.agreeOutside_call w.compiler.current w d).symm⟩
  exact (Policy.Compiler.round_record _ _ _ d h).trans (if_pos rfl)

/-- What the refusal of a request comes to: the refusal of a policy, or where that holds an integer of
too many digits, a failure to write it. -/
theorem raised_policy (cause : PolicyError) :
    (Error.policy cause).raised =
      if cause.hasText then .policy cause else .misuse .tooManyDigits := rfl

/-- A request of the admin of the office for a few actions on it, made for the admin of the office
alone. -/
def officeRequest (actions : List (Value × Value)) : Request where
  context := .value (.text "org")
  role := .text "admin"
  subject := .own "org"
  actions := .mapping actions
  subjectRole? := some (.text "admin")

end Session

end AccessMatrix
