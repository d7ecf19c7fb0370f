import AccessMatrix.Text.Blank
import Mathlib.Data.List.Chain

/-!
# Tidy texts

A text is tidy if its only blanks are single spaces between characters that are none. Putting one space
between the words of a text makes it tidy and leaves a tidy text as it is. A tidy text that is cut short
and marked at its end is tidy again. No tidy text holds an end of line of any kind.
-/

namespace AccessMatrix.Text

/-- Words with one space between neighbours. -/
def joined (words : List (List Char)) : List Char := (words.intersperse [' ']).flatten

theorem toList_collapse (s : String) : (collapse s).toList = joined (words s.toList) :=
  String.toList_ofList

theorem joined_cons {word : List Char} {others : List (List Char)} (h : others ≠ []) :
    joined (word :: others) = word ++ ' ' :: joined others := by
  cases others with
  | nil => contradiction
  | cons next others => simp [joined]

theorem joined_cons_cons (c : Char) (word : List Char) (others : List (List Char)) :
    joined ((c :: word) :: others) = c :: joined (word :: others) := by
  cases others with
  | nil => simp [joined]
  | cons next others => simp [joined]

/-- The words of a text are what is left between its blanks. -/
theorem words_eq_splitOnP (s : List Char) :
    words s = (s.splitOnP isBlank).filter fun word => !word.isEmpty := by
  fun_induction words s with
  | case1 => rfl
  | case2 c rest hblank ih => simp [List.splitOnP_cons_eq_if_modifyHead, hblank, ih]
  | case3 c hblank => simp [List.splitOnP_cons_eq_if_modifyHead, hblank]
  | case4 c hblank next rest hnext ih =>
    rw [ih]
    simp [List.splitOnP_cons_eq_if_modifyHead, hblank, hnext]
  | case5 c hblank next rest hnext hwords ih =>
    obtain ⟨word, others, hsplit⟩ := List.exists_cons_of_ne_nil (List.splitOnP_ne_nil isBlank rest)
    rw [ih] at hwords
    simp [List.splitOnP_cons_eq_if_modifyHead, hnext, hsplit] at hwords
  | case6 c hblank next rest hnext word others hwords ih =>
    obtain ⟨word', others', hsplit⟩ :=
      List.exists_cons_of_ne_nil (List.splitOnP_ne_nil isBlank rest)
    rw [ih] at hwords
    simp only [List.splitOnP_cons_eq_if_modifyHead, hnext, hsplit] at hwords
    simp_all [List.splitOnP_cons_eq_if_modifyHead]

/-- A text whose only blanks are single spaces between other characters. -/
structure IsTidy (s : List Char) : Prop where
  spaces : ∀ c ∈ s, isBlank c = true → c = ' '
  single : s.IsChain fun c next => isBlank c = false ∨ isBlank next = false
  first : ∀ c ∈ s.head?, isBlank c = false
  last : ∀ c ∈ s.getLast?, isBlank c = false

/-- A text without blanks is tidy. -/
theorem IsTidy.of_unblank {s : List Char} (h : ∀ c ∈ s, isBlank c = false) : IsTidy s where
  spaces c hc hblank := absurd hblank (by simp [h c hc])
  single := by
    induction s with
    | nil => exact List.isChain_nil
    | cons c rest ih =>
      obtain ⟨hc, hrest⟩ := List.forall_mem_cons.mp h
      exact (ih hrest).cons fun _ _ => .inl hc
  first c hc := h c (List.mem_of_head? hc)
  last c hc := h c (List.mem_of_getLast? hc)

/-- Tidy texts with a space between them are a tidy text. -/
theorem IsTidy.append_space {s t : List Char} (h : IsTidy s) (h' : IsTidy t) (hs : s ≠ [])
    (ht : t ≠ []) : IsTidy (s ++ ' ' :: t) where
  spaces := by
    refine List.forall_mem_append.mpr ⟨h.spaces, List.forall_mem_cons.mpr ⟨fun _ => rfl, h'.spaces⟩⟩
  single := by
    refine h.single.append (h'.single.cons fun c hc => .inr (h'.first c hc)) fun c hc next hnext => ?_
    exact .inl (h.last c hc)
  first c hc := by
    rw [List.head?_append_of_ne_nil _ hs] at hc
    exact h.first c hc
  last c hc := by
    rw [List.getLast?_append_of_ne_nil _ (List.cons_ne_nil _ _), List.getLast?_cons_of_ne_nil ht] at hc
    exact h'.last c hc

/-- Words with one space between neighbours are a tidy text. -/
theorem isTidy_joined {words : List (List Char)} (hne : ∀ word ∈ words, word ≠ [])
    (h : ∀ word ∈ words, ∀ c ∈ word, isBlank c = false) : IsTidy (joined words) := by
  induction words with
  | nil => exact .of_unblank (by simp [joined])
  | cons word others ih =>
    obtain ⟨hword, hothers⟩ := List.forall_mem_cons.mp h
    obtain ⟨hwordne, hothersne⟩ := List.forall_mem_cons.mp hne
    cases others with
    | nil => simpa [joined] using IsTidy.of_unblank hword
    | cons next others =>
      have hjoined : joined (next :: others) ≠ [] := by
        obtain ⟨c, rest, hnext⟩ := List.exists_cons_of_ne_nil (hothersne next List.mem_cons_self)
        rw [hnext, joined_cons_cons]
        exact List.cons_ne_nil _ _
      rw [joined_cons (List.cons_ne_nil _ _)]
      exact (IsTidy.of_unblank hword).append_space (ih hothersne hothers) hwordne hjoined

/-- A text with one space between its words is tidy. -/
theorem isTidy_collapse (s : String) : IsTidy (collapse s).toList := by
  rw [toList_collapse]
  exact isTidy_joined (fun word => ne_nil_of_mem_words) fun word hword c => isBlank_of_mem_words hword

/-- What a tidy text ends with is tidy from any character on that is not blank. -/
theorem IsTidy.of_append {s : List Char} (before : List Char) (h : IsTidy (before ++ s))
    (hs : s ≠ []) (hfirst : ∀ c ∈ s.head?, isBlank c = false) : IsTidy s where
  spaces c hc := h.spaces c (List.mem_append_right _ hc)
  single := h.single.right_of_append
  first := hfirst
  last c hc := h.last c (by rwa [List.getLast?_append_of_ne_nil _ hs])

/-- A tidy text has one space between its words. -/
theorem IsTidy.joined_words {s : List Char} (h : IsTidy s) : joined (words s) = s := by
  induction hlength : s.length using Nat.strongRecOn generalizing s with
  | ind length ih =>
    subst hlength
    match s with
    | [] => rfl
    | [c] =>
      have hblank : isBlank c = false := h.first c rfl
      simp [words, hblank, joined]
    | c :: next :: tail =>
      have hblank : isBlank c = false := h.first c rfl
      by_cases hnext : isBlank next = true
      · -- the next character is a space, and a word begins after it
        have hspace : next = ' ' := h.spaces next (by simp) hnext
        have htail : tail ≠ [] := by
          rintro rfl
          exact absurd (h.last next (by simp)) (by simp [hnext])
        have hfirst (d : Char) (hd : d ∈ tail.head?) : isBlank d = false := by
          have hpair := (List.isChain_cons.mp h.single.tail).1 d hd
          exact hpair.resolve_left (by simp [hnext])
        have hrest := ih tail.length (by simp only [List.length_cons]; omega)
          (IsTidy.of_append [c, next] h htail hfirst) rfl
        have hwords : words (c :: next :: tail) = [c] :: words tail := by
          simp [words, hblank, hnext]
        have hne : words tail ≠ [] := by
          intro hnil
          rw [hnil] at hrest
          exact htail hrest.symm
        rw [hwords, joined_cons hne, hrest, hspace]
        rfl
      · -- the word goes on
        have hrest := ih (next :: tail).length (by simp)
          (IsTidy.of_append [c] h (List.cons_ne_nil _ _) (by simp [hnext])) rfl
        cases hwords : words (next :: tail) with
        | nil =>
          rw [hwords] at hrest
          exact absurd hrest (by simp [joined])
        | cons word others =>
          have hgrown : words (c :: next :: tail) = (c :: word) :: others := by
            rw [words, hwords]
            simp [hblank, hnext]
          rw [hgrown, joined_cons_cons, ← hwords, hrest]

/-- A tidy text is left as it is. -/
theorem IsTidy.collapse_eq {s : String} (h : IsTidy s.toList) : collapse s = s := by
  rw [collapse]
  exact (congrArg String.ofList h.joined_words).trans String.ofList_toList

/-- The beginning of a tidy text is tidy with a mark at its end that is not blank. -/
theorem IsTidy.take_concat {s : List Char} (h : IsTidy s) (count : Nat) {mark : Char}
    (hmark : isBlank mark = false) : IsTidy (s.take count ++ [mark]) where
  spaces := by
    refine List.forall_mem_append.mpr ⟨fun c hc => h.spaces c (List.mem_of_mem_take hc), ?_⟩
    simp [hmark]
  single := (h.single.take count).append (List.isChain_singleton _) (by simp [hmark])
  first c hc := by
    rcases htaken : s.take count with _ | ⟨d, rest⟩
    · rw [htaken] at hc
      obtain rfl : mark = c := by simpa using hc
      exact hmark
    · have hhead : (s.take count).head? = some d := by
        rw [htaken]
        rfl
      rw [htaken] at hc
      obtain rfl : d = c := by simpa using hc
      rw [List.head?_take] at hhead
      split at hhead
      · contradiction
      · exact h.first d hhead
  last c hc := by
    obtain rfl : mark = c := by simpa using hc
    exact hmark

/-- The code points that end a line. -/
def lineEnds : List Nat := [0x0a, 0x0b, 0x0c, 0x0d, 0x1c, 0x1d, 0x1e, 0x85, 0x2028, 0x2029]

/-- A text without any end of line. -/
def OneLine (s : List Char) : Prop := ∀ c ∈ s, c.toNat ∉ lineEnds

theorem OneLine.append {s t : List Char} (h : OneLine s) (h' : OneLine t) : OneLine (s ++ t) :=
  List.forall_mem_append.mpr ⟨h, h'⟩

/-- A tidy text is one line. -/
theorem IsTidy.oneLine {s : List Char} (h : IsTidy s) : OneLine s := by
  intro c hc hends
  have hsubset : ∀ point ∈ lineEnds, point ∈ blankPoints := by decide
  obtain rfl := h.spaces c hc (List.contains_iff_mem.mpr (hsubset _ hends))
  revert hends
  decide

end AccessMatrix.Text
