/-! Steps that can fail, and runs of such a step over a list. A run stops at the first
failure, so a run that ends well consists of steps that ended well. -/

namespace ContractCode.Run

variable {State Result : Type u} {Item : Type v} {Failure : Type w}

theorem bind_eq_ok_iff {first : Except Failure State}
    {next : State → Except Failure Result}
    {result : Result} :
    first >>= next = .ok result ↔ ∃ state, first = .ok state ∧
      next state = .ok result := by
  cases first with
  | error failure => simp [bind, Except.bind]
  | ok state => simp [bind, Except.bind]

@[simp] theorem pure_eq_ok_iff {state result : State} :
    (pure state : Except Failure State) = .ok result ↔ state = result := by
  simp [pure, Except.pure]

theorem exists_error_iff {result : Except Failure State} :
    (∃ failure, result = .error failure) ↔ ¬ ∃ state, result = .ok state := by
  cases result with
  | error failure => simp
  | ok state => simp

theorem bind_of_ok {first : Except Failure State} {state : State}
    (found : first = .ok state)
    (next : State → Except Failure Result) : first >>= next = next state := by
  rw [found]
  rfl

theorem bind_of_error {first : Except Failure State} {failure : Failure}
    (failed : first = .error failure)
    (next : State → Except Failure Result) : first >>= next = .error failure := by
  rw [failed]
  rfl

/-- A failure that no step returns is not returned by the steps together. -/
theorem bind_ne_error {first : Except Failure State}
    {next : State → Except Failure Result}
    {failure : Failure} (first_ne : first ≠ .error failure)
    (next_ne : ∀ state, first = .ok state → next state ≠ .error failure) :
    first >>= next ≠ .error failure := by
  cases found : first with
  | error other =>
      intro same
      cases same
      exact first_ne found
  | ok state => exact next_ne state found

variable {step : State → Item → Except Failure State} {initial final : State}

theorem nil_eq_ok_iff :
    ([] : List Item).foldlM step initial = .ok final ↔ initial = final := by
  simp

theorem cons_eq_ok_iff {item : Item} {items : List Item} :
    (item :: items).foldlM step initial = .ok final ↔
      ∃ next, step initial item = .ok next ∧ items.foldlM step next = .ok final := by
  rw [List.foldlM_cons]
  exact bind_eq_ok_iff

/-- What every step keeps, a run keeps. -/
theorem preserves (Holds : State → Prop) {items : List Item}
    (stepPreserves : ∀ state item next, item ∈ items → Holds state →
      step state item = .ok next → Holds next)
    (ran : items.foldlM step initial = .ok final) (holds : Holds initial) :
    Holds final := by
  induction items generalizing initial with
  | nil =>
      rw [nil_eq_ok_iff] at ran
      exact ran ▸ holds
  | cons item items induction =>
      rcases cons_eq_ok_iff.mp ran with ⟨next, stepped, rest⟩
      apply induction _ rest
      · exact stepPreserves initial item next List.mem_cons_self holds stepped
      · intro state other after member
        exact stepPreserves state other after (List.mem_cons_of_mem _ member)

/-- A run ends well if every step does where the ones before it ended. -/
theorem succeeds (Holds : State → List Item → Prop) {items : List Item}
    (stepSucceeds : ∀ state item rest, item ∈ items → Holds state (item :: rest) →
      ∃ next, step state item = .ok next ∧ Holds next rest)
    (holds : Holds initial items) :
    ∃ final, items.foldlM step initial = .ok final ∧ Holds final [] := by
  induction items generalizing initial with
  | nil => exact ⟨initial, rfl, holds⟩
  | cons item items induction =>
      rcases stepSucceeds initial item items List.mem_cons_self holds with
        ⟨next, stepped, nextHolds⟩
      have later : ∀ state other rest, other ∈ items → Holds state (other :: rest) →
          ∃ next, step state other = .ok next ∧ Holds next rest := by
        intro state other rest member
        exact stepSucceeds state other rest (List.mem_cons_of_mem _ member)
      rcases induction later nextHolds with ⟨final, ran, finalHolds⟩
      exact ⟨final, cons_eq_ok_iff.mpr ⟨next, stepped, ran⟩, finalHolds⟩

/-- Every item of a run has its step in it. -/
theorem step_of_mem {items : List Item} {item : Item}
    (ran : items.foldlM step initial = .ok final) (member : item ∈ items) :
    ∃ earlier later state next, items = earlier ++ item :: later ∧
      earlier.foldlM step initial = .ok state ∧ step state item = .ok next ∧
      later.foldlM step next = .ok final := by
  rcases List.append_of_mem member with ⟨earlier, later, rfl⟩
  rw [List.foldlM_append] at ran
  rcases bind_eq_ok_iff.mp ran with ⟨state, ranEarlier, ran⟩
  rcases cons_eq_ok_iff.mp ran with ⟨next, stepped, ranLater⟩
  exact ⟨earlier, later, state, next, rfl, ranEarlier, stepped, ranLater⟩

/-- A run of steps that change nothing changes nothing. -/
theorem stays {items : List Item}
    (still : ∀ item ∈ items, step initial item = .ok initial) :
    items.foldlM step initial = .ok initial := by
  induction items with
  | nil => rfl
  | cons item items induction =>
      rcases List.forall_mem_cons.mp still with ⟨first, others⟩
      exact cons_eq_ok_iff.mpr ⟨initial, first, induction others⟩

/-- Two steps that do the same wherever one of them leads make the same run. -/
theorem congr {other : State → Item → Except Failure State} (Holds : State → Prop)
    {items : List Item}
    (same : ∀ state item, item ∈ items → Holds state → step state item = other state item)
    (keeps : ∀ state item next, item ∈ items → Holds state →
      step state item = .ok next → Holds next)
    (holds : Holds initial) : items.foldlM step initial = items.foldlM other initial := by
  induction items generalizing initial with
  | nil => rfl
  | cons item items induction =>
      rw [List.foldlM_cons,
        List.foldlM_cons, ← same initial item List.mem_cons_self holds]
      cases stepped : step initial item with
      | error failure => rfl
      | ok next =>
          apply induction
          · intro state other member
            exact same state other (List.mem_cons_of_mem _ member)
          · intro state other after member
            exact keeps state other after (List.mem_cons_of_mem _ member)
          · exact keeps initial item next List.mem_cons_self holds stepped

/-! ## Results for every item -/

variable {find : Item → Except Failure Result} {items others : List Item}
  {results : List Result}

theorem mapM_cons_eq_ok_iff {item : Item} :
    (item :: items).mapM find = .ok results ↔
      ∃ first rest, find item = .ok first ∧ items.mapM find = .ok rest ∧
        results = first :: rest := by
  rw [List.mapM_cons, bind_eq_ok_iff]
  simp only [bind_eq_ok_iff, pure_eq_ok_iff]
  constructor
  · rintro ⟨first, found, rest, foundRest, rfl⟩
    exact ⟨first, rest, found, foundRest, rfl⟩
  · rintro ⟨first, rest, found, foundRest, rfl⟩
    exact ⟨first, found, rest, foundRest, rfl⟩

theorem mem_of_mapM (ran : items.mapM find = .ok results) :
    ∀ result ∈ results, ∃ item ∈ items, find item = .ok result := by
  induction items generalizing results with
  | nil =>
      rw [List.mapM_nil, pure_eq_ok_iff] at ran
      exact ran ▸ nofun
  | cons item items induction =>
      rcases mapM_cons_eq_ok_iff.mp ran with ⟨first, rest, found, foundRest, rfl⟩
      intro result member
      rcases List.mem_cons.mp member with rfl | later
      · exact ⟨item, List.mem_cons_self, found⟩
      · rcases induction foundRest result later with ⟨other, otherMember, otherFound⟩
        exact ⟨other, List.mem_cons_of_mem _ otherMember, otherFound⟩

/-- In another order the items have their results in another order. -/
theorem mapM_perm (same : items.Perm others) (ran : items.mapM find = .ok results) :
    ∃ reordered, others.mapM find = .ok reordered ∧ results.Perm reordered := by
  induction same generalizing results with
  | nil => exact ⟨results, ran, .refl _⟩
  | cons item _ induction =>
      rcases mapM_cons_eq_ok_iff.mp ran with ⟨first, rest, found, foundRest, rfl⟩
      rcases induction foundRest with ⟨reordered, reran, perm⟩
      exact ⟨first :: reordered, mapM_cons_eq_ok_iff.mpr ⟨_, _, found, reran, rfl⟩,
        perm.cons _⟩
  | swap left right items =>
      rcases mapM_cons_eq_ok_iff.mp ran with ⟨first, _, found, others, rfl⟩
      rcases mapM_cons_eq_ok_iff.mp others with
        ⟨second, rest, foundSecond, foundRest, rfl⟩
      have swapped := mapM_cons_eq_ok_iff.mpr ⟨_, _, found, foundRest, rfl⟩
      exact ⟨second :: first :: rest,
        mapM_cons_eq_ok_iff.mpr ⟨_, _, foundSecond, swapped, rfl⟩, .swap _ _ _⟩
  | trans _ _ firstInduction secondInduction =>
      rcases firstInduction ran with ⟨middle, ranMiddle, firstPerm⟩
      rcases secondInduction ranMiddle with ⟨last, ranLast, secondPerm⟩
      exact ⟨last, ranLast, firstPerm.trans secondPerm⟩

end ContractCode.Run
