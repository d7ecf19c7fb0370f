/-!
# Outcomes that succeed

A computation that can fail succeeds exactly when each of its parts does. These lemmas take a
successful outcome apart, so that no proof unfolds the sequencing of checks.
-/

namespace AccessMatrix.Outcome

variable {ε α β : Type}

/-- A sequence succeeds exactly if its first part does and then the rest. -/
theorem bind_eq_ok {x : Except ε α} {f : α → Except ε β} {b : β} :
    x >>= f = .ok b ↔ ∃ a, x = .ok a ∧ f a = .ok b := by
  cases x <;> simp [bind, Except.bind]

theorem pure_eq_ok {a b : α} : (pure a : Except ε α) = .ok b ↔ a = b := by
  simp [pure, Except.pure]

@[simp] theorem throw_ne_ok {e : ε} {a : α} : (throw e : Except ε α) ≠ .ok a := by
  simp [throw, throwThe, MonadExceptOf.throw]

theorem map_eq_ok {x : Except ε α} {f : α → β} {b : β} :
    x.map f = .ok b ↔ ∃ a, x = .ok a ∧ f a = b := by
  cases x <;> simp [Except.map]

theorem map_eq_error {x : Except ε α} {f : α → β} {e : ε} : x.map f = .error e ↔ x = .error e := by
  cases x <;> simp [Except.map]

theorem mapError_eq_ok {ε' : Type} {x : Except ε α} {f : ε → ε'} {a : α} :
    x.mapError f = .ok a ↔ x = .ok a := by
  cases x with
  | error e => exact iff_of_false nofun nofun
  | ok b =>
    constructor
    · intro h
      exact congrArg Except.ok (Except.ok.inj h)
    · intro h
      exact congrArg Except.ok (Except.ok.inj h)

theorem mapError_eq_error {ε' : Type} {x : Except ε α} {f : ε → ε'} {e : ε'} :
    x.mapError f = .error e ↔ ∃ cause, x = .error cause ∧ f cause = e := by
  cases x with
  | ok a => exact iff_of_false nofun nofun
  | error cause =>
    constructor
    · intro h
      exact ⟨cause, rfl, Except.error.inj h⟩
    · intro h
      obtain ⟨_, hcause, rfl⟩ := h
      obtain rfl := Except.error.inj hcause
      rfl

/-- A sequence fails exactly if its first part does, or else the rest. -/
theorem bind_eq_error {x : Except ε α} {f : α → Except ε β} {e : ε} :
    x >>= f = .error e ↔ x = .error e ∨ ∃ a, x = .ok a ∧ f a = .error e := by
  cases x <;> simp [bind, Except.bind]

theorem isOk_eq_true_iff {x : Except ε α} : x.isOk = true ↔ ∃ a, x = .ok a := by
  cases x <;> simp [Except.isOk, Except.toBool]

theorem isOk_eq_false_iff {x : Except ε α} : x.isOk = false ↔ ∃ e, x = .error e := by
  cases x <;> simp [Except.isOk, Except.toBool]

/-- A sequence answers what the rest answers to the first part's answer. -/
theorem toOption_bind (x : Except ε α) (f : α → Except ε β) :
    (x >>= f).toOption = x.toOption.bind fun a => (f a).toOption := by
  cases x <;> rfl

theorem toOption_map (x : Except ε α) (f : α → β) : (x.map f).toOption = x.toOption.map f := by
  cases x <;> rfl

theorem toOption_mapError {ε' : Type} (x : Except ε α) (f : ε → ε') :
    (x.mapError f).toOption = x.toOption := by
  cases x <;> rfl

theorem toOption_eq_none {x : Except ε α} : x.toOption = none ↔ ∃ e, x = .error e := by
  cases x <;> simp [Except.toOption]

/-- A computation fails exactly if it does not succeed. -/
theorem exists_error_iff {x : Except ε α} : (∃ e, x = .error e) ↔ ¬ ∃ a, x = .ok a := by
  cases x <;> simp

/-- What every step of a fold does for its item and later steps leave done, a fold that succeeds does
for every item. -/
theorem foldlM_does {motive : β → Prop} (done : α → β → Prop) {f : β → α → Except ε β}
    {items : List α} {start result : β}
    (hstep : ∀ state, motive state → ∀ item ∈ items, ∀ next, f state item = .ok next →
      motive next ∧ done item next ∧ ∀ other, done other state → done other next)
    (hstart : motive start) (h : items.foldlM f start = .ok result) :
    motive result ∧ (∀ item ∈ items, done item result) ∧
      ∀ other, done other start → done other result := by
  induction items generalizing start with
  | nil =>
    obtain rfl := pure_eq_ok.mp h
    exact ⟨hstart, by simp, fun _ hdone => hdone⟩
  | cons item rest ih =>
    obtain ⟨next, hnext, h⟩ := bind_eq_ok.mp h
    obtain ⟨hmotive, hitem, hkeep⟩ := hstep start hstart item List.mem_cons_self next hnext
    obtain ⟨hresult, hrest, hlater⟩ := ih
      (fun state hstate other hother => hstep state hstate other (List.mem_cons_of_mem _ hother))
      hmotive h
    refine ⟨hresult, List.forall_mem_cons.mpr ⟨hlater item hitem, hrest⟩, fun other hdone => ?_⟩
    exact hlater other (hkeep other hdone)

/-- What every step of a fold keeps, a fold that succeeds keeps. -/
theorem foldlM_keeps {motive : β → Prop} {f : β → α → Except ε β} {items : List α} {start result : β}
    (hstep : ∀ state, motive state → ∀ item ∈ items, ∀ next, f state item = .ok next → motive next)
    (hstart : motive start) (h : items.foldlM f start = .ok result) : motive result := by
  have hdoes := foldlM_does (fun _ _ => True) (fun state hstate item hitem next hnext =>
    ⟨hstep state hstate item hitem next hnext, trivial, fun _ _ => trivial⟩) hstart h
  exact hdoes.1

/-- A fold whose steps succeed as those of another one do succeeds as that one does. -/
theorem foldlM_eq_ok_of_steps {ε' : Type} {f : β → α → Except ε β} {f' : β → α → Except ε' β}
    {items : List α} {start result : β}
    (hstep : ∀ state, ∀ item ∈ items, ∀ next, f state item = .ok next → f' state item = .ok next)
    (h : items.foldlM f start = .ok result) : items.foldlM f' start = .ok result := by
  induction items generalizing start with
  | nil => exact pure_eq_ok.mpr (pure_eq_ok.mp h)
  | cons item rest ih =>
    obtain ⟨next, hnext, h⟩ := bind_eq_ok.mp h
    refine bind_eq_ok.mpr ⟨next, hstep start item List.mem_cons_self next hnext, ih ?_ h⟩
    exact fun state other hother => hstep state other (List.mem_cons_of_mem _ hother)

/-- The failure of a fold is that of a step, whatever it is turned into. -/
theorem mapError_foldlM {ε' : Type} (toError : ε → ε') (f : β → α → Except ε β) (items : List α)
    (start : β) :
    (items.foldlM f start).mapError toError =
      items.foldlM (fun state item => (f state item).mapError toError) start := by
  induction items generalizing start with
  | nil => rfl
  | cons item rest ih =>
    rw [List.foldlM_cons, List.foldlM_cons]
    cases f start item with
    | error e => rfl
    | ok next => exact ih next

/-- A fold over other items and states goes as the one whose steps it follows. -/
theorem foldlM_map_of_steps {ε' α' β' : Type} {toError : ε → ε'} (toState : β → β') {toItem : α → α'}
    {motive : β → Prop} {f : β → α → Except ε β} {f' : β' → α' → Except ε' β'} {items : List α}
    (start : β) (hstart : motive start)
    (hstep : ∀ state, motive state → ∀ item ∈ items,
      f' (toState state) (toItem item) = ((f state item).map toState).mapError toError ∧
        ∀ next, f state item = .ok next → motive next) :
    (items.map toItem).foldlM f' (toState start) =
      ((items.foldlM f start).map toState).mapError toError := by
  induction items generalizing start with
  | nil => rfl
  | cons item rest ih =>
    obtain ⟨heq, hnext⟩ := hstep start hstart item List.mem_cons_self
    rw [List.map_cons, List.foldlM_cons, List.foldlM_cons, heq]
    cases hitem : f start item with
    | error e => rfl
    | ok next =>
      refine ih next (hnext next hitem) fun state hstate other hother => ?_
      exact hstep state hstate other (List.mem_cons_of_mem _ hother)

/-- A fold that fails has a step that does. -/
theorem exists_of_foldlM_eq_error {f : β → α → Except ε β} {items : List α} {start : β} {e : ε}
    (h : items.foldlM f start = .error e) : ∃ state, ∃ item ∈ items, f state item = .error e := by
  induction items generalizing start with
  | nil => cases h
  | cons item rest ih =>
    rw [List.foldlM_cons, bind_eq_error] at h
    rcases h with hitem | ⟨next, -, hrest⟩
    · exact ⟨start, item, List.mem_cons_self, hitem⟩
    · obtain ⟨state, other, hother, herror⟩ := ih hrest
      exact ⟨state, other, List.mem_cons_of_mem _ hother, herror⟩

/-- A computation that succeeds for every item succeeds for all. -/
theorem mapM_eq_ok {f : α → Except ε β} {image : α → β} {items : List α}
    (h : ∀ item ∈ items, f item = .ok (image item)) : items.mapM f = .ok (items.map image) := by
  induction items with
  | nil => rfl
  | cons item rest ih =>
    obtain ⟨hitem, hrest⟩ := List.forall_mem_cons.mp h
    rw [List.mapM_cons, hitem, ih hrest]
    rfl

/-- A computation that succeeds for a list does so for every item. -/
theorem exists_of_mapM_eq_ok {f : α → Except ε β} {items : List α} {results : List β}
    (h : items.mapM f = .ok results) : ∀ item ∈ items, ∃ result, f item = .ok result := by
  induction items generalizing results with
  | nil => exact fun _ hitem => absurd hitem List.not_mem_nil
  | cons item rest ih =>
    rw [List.mapM_cons, bind_eq_ok] at h
    obtain ⟨result, hitem, h⟩ := h
    obtain ⟨later, hrest, -⟩ := bind_eq_ok.mp h
    exact List.forall_mem_cons.mpr ⟨⟨result, hitem⟩, ih hrest⟩

/-- A computation that can only come to one thing for every item comes to these for a list. -/
theorem eq_map_of_mapM_eq_ok {f : α → Except ε β} {image : α → β} {items : List α}
    {results : List β} (hitem : ∀ item ∈ items, ∀ result, f item = .ok result → result = image item)
    (h : items.mapM f = .ok results) : results = items.map image := by
  have hall : items.mapM f = .ok (items.map image) := mapM_eq_ok fun item hmem => by
    obtain ⟨result, hresult⟩ := exists_of_mapM_eq_ok h item hmem
    rw [hresult, hitem item hmem result hresult]
  exact Except.ok.inj (h.symm.trans hall)

/-- What a computation comes to for a list it comes to for the items. -/
theorem exists_of_mem_mapM {f : α → Except ε β} {items : List α} {results : List β}
    (h : items.mapM f = .ok results) : ∀ result ∈ results, ∃ item ∈ items, f item = .ok result := by
  induction items generalizing results with
  | nil =>
    obtain rfl := pure_eq_ok.mp h
    exact fun _ hresult => absurd hresult List.not_mem_nil
  | cons item rest ih =>
    rw [List.mapM_cons, bind_eq_ok] at h
    obtain ⟨result, hitem, h⟩ := h
    obtain ⟨later, hrest, h⟩ := bind_eq_ok.mp h
    obtain rfl := pure_eq_ok.mp h
    refine List.forall_mem_cons.mpr ⟨⟨item, List.mem_cons_self, hitem⟩, fun other hother => ?_⟩
    obtain ⟨found, hfound, heq⟩ := ih hrest other hother
    exact ⟨found, List.mem_cons_of_mem _ hfound, heq⟩

/-- A computation fails for a list as it does for the first item that it fails for. -/
theorem mapM_eq_error {f : α → Except ε β} {items : List α} {e : ε} :
    items.mapM f = .error e ↔ ∃ before item after, items = before ++ item :: after ∧
      (∀ earlier ∈ before, ∃ b, f earlier = .ok b) ∧ f item = .error e := by
  induction items with
  | nil => simp [pure, Except.pure]
  | cons first rest ih =>
    rw [List.mapM_cons, bind_eq_error]
    constructor
    · rintro (hfirst | ⟨b, hfirst, hrest⟩)
      · exact ⟨[], first, rest, rfl, by simp, hfirst⟩
      · obtain hrest | ⟨_, -, hpure⟩ := bind_eq_error.mp hrest
        · obtain ⟨before, item, after, rfl, hbefore, hitem⟩ := ih.mp hrest
          exact ⟨first :: before, item, after, rfl,
            List.forall_mem_cons.mpr ⟨⟨b, hfirst⟩, hbefore⟩, hitem⟩
        · cases hpure
    · rintro ⟨before, item, after, heq, hbefore, hitem⟩
      obtain ⟨rfl, rfl, rfl⟩ | ⟨earlier, rfl, rfl⟩ := List.cons_eq_append_iff.mp heq
      · exact .inl hitem
      · obtain ⟨⟨b, hfirst⟩, hearlier⟩ := List.forall_mem_cons.mp hbefore
        have hrest := ih.mpr ⟨earlier, item, after, rfl, hearlier, hitem⟩
        exact .inr ⟨b, hfirst, bind_eq_error.mpr (.inl hrest)⟩

/-- Folds whose steps agree on every item agree. -/
theorem foldlM_congr {f f' : β → α → Except ε β} {items : List α}
    (h : ∀ state, ∀ item ∈ items, f state item = f' state item) (start : β) :
    items.foldlM f start = items.foldlM f' start := by
  induction items generalizing start with
  | nil => rfl
  | cons item rest ih =>
    rw [List.foldlM_cons, List.foldlM_cons, h start item List.mem_cons_self]
    refine bind_congr fun next => ih (fun state other hother => ?_) next
    exact h state other (List.mem_cons_of_mem _ hother)

/-- A computation answers for a list what its answers for the items make up. -/
theorem toOption_mapM (f : α → Except ε β) (items : List α) :
    (items.mapM f).toOption = items.mapM fun item => (f item).toOption := by
  induction items with
  | nil => rfl
  | cons item rest ih =>
    rw [List.mapM_cons, List.mapM_cons, toOption_bind, ← ih]
    cases (f item).toOption with
    | none => rfl
    | some result => exact toOption_bind _ _

/-- Computations that agree on every item agree on the list. -/
theorem mapM_congr {f f' : α → Except ε β} {items : List α}
    (h : ∀ item ∈ items, f item = f' item) : items.mapM f = items.mapM f' := by
  induction items with
  | nil => rfl
  | cons item rest ih =>
    obtain ⟨hitem, hrest⟩ := List.forall_mem_cons.mp h
    rw [List.mapM_cons, List.mapM_cons, hitem, ih hrest]

end AccessMatrix.Outcome
