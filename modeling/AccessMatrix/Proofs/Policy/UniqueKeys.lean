import AccessMatrix.Policy.Keys

/-!
# Unique parsing of keys

The parts of a key are joined by dashes and not escaped. A key of parts without dashes has exactly
three of them, so it is the key of no other parts, whatever those are.
-/

namespace AccessMatrix.Policy

/-- A text without the dash that joins the parts of keys. -/
def Undashed (s : String) : Prop := '-' ∉ s.toList

instance (s : String) : Decidable (Undashed s) := inferInstanceAs (Decidable ('-' ∉ s.toList))

theorem undashed_noRole : Undashed noRole := by decide

theorem undashed_keyRole {role : Option String} (h : ∀ name, role = some name → Undashed name) :
    Undashed (keyRole role) := by
  cases role with
  | none => exact undashed_noRole
  | some name =>
    rw [keyRole]
    split
    · exact undashed_noRole
    · exact h name rfl

/-- A key is its parts joined by dashes. -/
theorem toList_accessKey (context : String) (role : Option String) (subject : String)
    (subjectRole : Option String) :
    (accessKey context role subject subjectRole).toList =
      ['-'].intercalate
        [context.toList, (keyRole role).toList, subject.toList, (keyRole subjectRole).toList] := by
  simp [accessKey, List.intercalate]

/-- A key has three dashes besides those of its parts. -/
theorem count_dash_accessKey (context : String) (role : Option String) (subject : String)
    (subjectRole : Option String) :
    (accessKey context role subject subjectRole).toList.count '-' =
      context.toList.count '-' + (keyRole role).toList.count '-' + subject.toList.count '-' +
        (keyRole subjectRole).toList.count '-' + 3 := by
  simp [accessKey]
  omega

/-- A key of parts without dashes splits at the dashes into its parts. -/
theorem splitOn_accessKey {context subject : String} {role subjectRole : Option String}
    (hcontext : Undashed context) (hrole : Undashed (keyRole role)) (hsubject : Undashed subject)
    (hsubjectRole : Undashed (keyRole subjectRole)) :
    (accessKey context role subject subjectRole).toList.splitOn '-' =
      [context.toList, (keyRole role).toList, subject.toList, (keyRole subjectRole).toList] := by
  rw [toList_accessKey]
  refine List.splitOn_intercalate '-' ?_ (List.cons_ne_nil _ _)
  simp only [List.forall_mem_cons]
  exact ⟨hcontext, hrole, hsubject, hsubjectRole, by simp⟩

/-- The key of parts without dashes is the key of no other parts. -/
theorem accessKey_inj {context subject context' subject' : String}
    {role subjectRole role' subjectRole' : Option String} (hcontext : Undashed context)
    (hrole : Undashed (keyRole role)) (hsubject : Undashed subject)
    (hsubjectRole : Undashed (keyRole subjectRole))
    (h : accessKey context role subject subjectRole =
      accessKey context' role' subject' subjectRole') :
    context = context' ∧ keyRole role = keyRole role' ∧ subject = subject' ∧
      keyRole subjectRole = keyRole subjectRole' := by
  have hdashes := count_dash_accessKey context role subject subjectRole
  rw [h, count_dash_accessKey, List.count_eq_zero.mpr hcontext, List.count_eq_zero.mpr hrole,
    List.count_eq_zero.mpr hsubject, List.count_eq_zero.mpr hsubjectRole] at hdashes
  have hcontext' : Undashed context' := List.count_eq_zero.mp (by omega)
  have hrole' : Undashed (keyRole role') := List.count_eq_zero.mp (by omega)
  have hsubject' : Undashed subject' := List.count_eq_zero.mp (by omega)
  have hsubjectRole' : Undashed (keyRole subjectRole') := List.count_eq_zero.mp (by omega)
  have hparts := splitOn_accessKey hcontext hrole hsubject hsubjectRole
  rw [h, splitOn_accessKey hcontext' hrole' hsubject' hsubjectRole'] at hparts
  simpa only [List.cons.injEq, String.toList_inj, and_true, eq_comm] using hparts

/-- On one subject, the key of an action is the key of no other action. -/
theorem actionKey_inj {subject action action' : String}
    (h : actionKey subject action = actionKey subject action') : action = action' := by
  have htoList := congrArg String.toList h
  simp only [actionKey, String.toList_append, List.append_assoc, List.append_cancel_left_eq] at htoList
  exact String.toList_inj.mp htoList

/-- What stands before and after the first mark of a list is told from the list. -/
theorem append_mark_inj {α : Type} {mark : α} {left left' right right' : List α} (hleft : mark ∉ left)
    (hleft' : mark ∉ left') (h : left ++ mark :: right = left' ++ mark :: right') :
    left = left' ∧ right = right' := by
  induction left generalizing left' with
  | nil =>
    cases left' with
    | nil => exact ⟨rfl, (List.cons.inj h).2⟩
    | cons first rest =>
      obtain ⟨rfl, -⟩ := List.cons.inj h
      exact absurd List.mem_cons_self hleft'
  | cons first rest ih =>
    cases left' with
    | nil =>
      obtain ⟨rfl, -⟩ := List.cons.inj h
      exact absurd List.mem_cons_self hleft
    | cons first' rest' =>
      obtain ⟨rfl, hrest⟩ := List.cons.inj h
      obtain ⟨rfl, hright⟩ := ih (List.not_mem_of_not_mem_cons hleft)
        (List.not_mem_of_not_mem_cons hleft') hrest
      exact ⟨rfl, hright⟩

/-- The key of an action on a subject without dashes is that of no other subject without dashes, and of
no other action. -/
theorem actionKey_inj_of_undashed {subject subject' action action' : String}
    (hsubject : Undashed subject) (hsubject' : Undashed subject')
    (h : actionKey subject action = actionKey subject' action') :
    subject = subject' ∧ action = action' := by
  have htoList : subject.toList ++ '-' :: action.toList = subject'.toList ++ '-' :: action'.toList := by
    simpa [actionKey] using congrArg String.toList h
  obtain ⟨hsubjects, hactions⟩ := append_mark_inj hsubject hsubject' htoList
  exact ⟨String.toList_inj.mp hsubjects, String.toList_inj.mp hactions⟩

/-- The key of an action without dots on a gated entity is that of no other entity, and of no other
action without dots. -/
theorem controllerKey_inj {controller controller' action action' : String}
    (haction : '.' ∉ action.toList) (haction' : '.' ∉ action'.toList)
    (h : controllerKey controller action = controllerKey controller' action') :
    controller = controller' ∧ action = action' := by
  -- the entity may have dots in its name, so the key is split at its last one
  have htoList : action.toList.reverse ++ '.' :: controller.toList.reverse =
      action'.toList.reverse ++ '.' :: controller'.toList.reverse := by
    simpa [controllerKey] using congrArg (List.reverse ∘ String.toList) h
  obtain ⟨hactions, hcontrollers⟩ := append_mark_inj (fun h => haction (List.mem_reverse.mp h))
    (fun h => haction' (List.mem_reverse.mp h)) htoList
  exact ⟨String.toList_inj.mp (List.reverse_inj.mp hcontrollers),
    String.toList_inj.mp (List.reverse_inj.mp hactions)⟩

end AccessMatrix.Policy
