import ContractCode.Proofs.Tokens

/-! # What is passed over

The tokens of an item follow from the bytes alone, and the counters of what is due
follow from the tokens alone. So what is passed over is passed over whatever comes after
it. If no token of it is a break, then it is one well-formed item; a break may also
stand where no container is open.
-/

namespace ContractCode.Cbor

variable {input rest bytes : Bytes}

/-! ## Tokens that are passed

The counters see the tokens only, so what they take is a property of the list of
tokens. -/

/-- The bytes are these tokens, one after the other. -/
inductive AreTokens : List Token → Bytes → Prop
  | nil : AreTokens [] []
  | cons {token : Token} {tokens : List Token} {first others : Bytes}
      (isToken : IsToken token first)
      (areTokens : AreTokens tokens others) :
      AreTokens (token :: tokens) (first ++ others)

theorem IsToken.areTokens {token : Token} (isToken : IsToken token bytes) :
    AreTokens [token] bytes := by
  have areTokens := AreTokens.cons isToken .nil
  rw [List.append_nil] at areTokens
  exact areTokens

/-- With all these tokens, and not before, nothing is due any more. -/
inductive Due.Passes : Due → List Token → Prop
  | done {due : Due} (isDone : due.isDone = true) : Passes due []
  | last {due : Due} {token : Token} (isDue : due.isDone = false)
      (ended : due.after? token = none) :
      Passes due [token]
  | step {due next : Due} {token : Token} {tokens : List Token}
      (isDue : due.isDone = false)
      (counted : due.after? token = some next) (later : next.Passes tokens) :
      Passes due (token :: tokens)

theorem exists_passes {due : Due} (found : skipDue? due input = some rest) :
    ∃ tokens bytes, due.Passes tokens ∧ AreTokens tokens bytes ∧
      input = bytes ++ rest := by
  induction size : input.length using Nat.strongRecOn generalizing due input with
  | _ length induction =>
      rw [skipDue?_eq] at found
      split at found
      · rename_i isDone
        cases found
        exact ⟨[], [], .done isDone, .nil, rfl⟩
      · rename_i isDue
        rcases Option.bind_eq_some_iff.mp found with ⟨⟨token, left⟩, read, later⟩
        have shorter := length_token? read
        rcases token?_eq_some_iff.mp read with ⟨first, isToken, rfl⟩
        dsimp only at later
        split at later
        · rename_i ended
          cases later
          exact ⟨[token], first, .last (by simpa using isDue) ended,
            isToken.areTokens, rfl⟩
        · rename_i next counted
          rcases induction left.length (by omega) later rfl with
            ⟨tokens, others, passes, areTokens, rfl⟩
          refine ⟨_, _, .step (by simpa using isDue) counted passes,
            .cons isToken areTokens, ?_⟩
          rw [List.append_assoc]

theorem Due.Passes.skipDue?_append {due : Due} {tokens : List Token}
    (passes : due.Passes tokens)
    (areTokens : AreTokens tokens bytes) (rest : Bytes) :
    skipDue? due (bytes ++ rest) = some rest := by
  induction passes generalizing bytes with
  | done isDone =>
      cases areTokens with
      | nil => rw [skipDue?_eq, if_pos isDone, List.nil_append]
  | last isDue ended =>
      cases areTokens with
      | cons isToken others =>
          cases others with
          | nil =>
              rw [List.append_nil, skipDue?_eq, isDue, isToken.token?_append]
              simp only [Bool.false_eq_true, if_false, Option.bind_some, ended]
  | step isDue counted _ induction =>
      cases areTokens with
      | cons isToken others =>
          rw [List.append_assoc, skipDue?_eq, isDue, isToken.token?_append]
          simp only [Bool.false_eq_true, if_false, Option.bind_some, counted]
          exact induction others

theorem skip?_eq_some_iff :
    skip? input = some rest ↔
      ∃ tokens bytes, Due.one.Passes tokens ∧ AreTokens tokens bytes ∧
        input = bytes ++ rest := by
  constructor
  · exact exists_passes
  · rintro ⟨tokens, bytes, passes, areTokens, rfl⟩
    exact passes.skipDue?_append areTokens rest

/-- The bytes are passed over, whatever comes after them. -/
def IsPassed (bytes : Bytes) : Prop := ∀ rest, skip? (bytes ++ rest) = some rest

theorem exists_isPassed (found : skip? input = some rest) :
    ∃ bytes, IsPassed bytes ∧ input = bytes ++ rest := by
  rcases skip?_eq_some_iff.mp found with ⟨tokens, bytes, passes, areTokens, joined⟩
  exact ⟨bytes, passes.skipDue?_append areTokens, joined⟩

theorem IsToken.isPassed (isToken : IsToken .leaf bytes) : IsPassed bytes := by
  have passes : Due.one.Passes [.leaf] := .step rfl rfl (.done rfl)
  exact passes.skipDue?_append isToken.areTokens

/-! ## Well-formed items -/

/-- The bytes are one well-formed item. -/
inductive IsItem : Bytes → Prop
  | leaf {bytes : Bytes} (isToken : IsToken .leaf bytes) : IsItem bytes
  | array {items : List Bytes} {head : Bytes}
      (isHead : IsHead arrayType items.length head)
      (areItems : ∀ item ∈ items, IsItem item) : IsItem (head ++ items.flatten)
  | map {count : Nat} {items : List Bytes} {head : Bytes}
      (isHead : IsHead mapType count head)
      (pairs : items.length = 2 * count) (areItems : ∀ item ∈ items, IsItem item) :
      IsItem (head ++ items.flatten)
  | openArray {items : List Bytes} (areItems : ∀ item ∈ items, IsItem item) :
      IsItem (openHead arrayType :: items.flatten ++ [breakByte])
  | openMap {count : Nat} {items : List Bytes} (pairs : items.length = 2 * count)
      (areItems : ∀ item ∈ items, IsItem item) :
      IsItem (openHead mapType :: items.flatten ++ [breakByte])
  | tag {value : Nat} {head item : Bytes} (isHead : IsHead tagType value head)
      (isItem : IsItem item) :
      IsItem (head ++ item)

/-- How many items belong to the item that starts with the token, if the token tells
it. -/
def Token.items? : Token → Option Nat
  | .leaf => some 0
  | .container items => items
  | .tag => some 1
  | .breakMark => none

/-- One of the tokens is a break. The one that ends the pieces of a string is part of a
larger token. -/
def HasBreak (bytes : Bytes) : Prop :=
  ∃ tokens, AreTokens tokens bytes ∧ .breakMark ∈ tokens

theorem IsHead.ne_nil {major value : Nat} (isHead : IsHead major value bytes) :
    bytes ≠ [] := by
  rcases isHead with ⟨form, _, rfl⟩
  rw [HeadForm.encode]
  simp

theorem IsToken.ne_nil {token : Token} (isToken : IsToken token bytes) : bytes ≠ [] := by
  rintro rfl
  have := length_token? (isToken.token?_append [])
  simp at this

theorem IsItem.ne_nil (isItem : IsItem bytes) : bytes ≠ [] := by
  cases isItem with
  | leaf isToken => exact isToken.ne_nil
  | array isHead areItems | map isHead pairs areItems | tag isHead isItem =>
      simp [isHead.ne_nil]
  | openArray areItems | openMap pairs areItems => simp

namespace Due

/-! An open container stays open up to a break. -/

/-- Some container goes on up to a break. -/
def IsOpen (due : Due) : Prop := 0 < due.openEnded ∨ none ∈ due.around

theorem mem_withoutEmpty {around : List (Option Nat)} (mem : none ∈ around) :
    none ∈ withoutEmpty around := by
  induction around with
  | nil => exact mem
  | cons first around induction =>
      match first with
      | some 0 =>
          rw [withoutEmpty]
          exact induction (by simpa using mem)
      | some (_ + 1) => exact mem
      | none => exact mem

theorem IsOpen.exists_count? {due : Due} (isOpen : due.IsOpen) :
    ∃ next, due.count? = some next ∧ next.IsOpen := by
  rw [count?]
  split
  · rename_i outside
    have mem : none ∈ due.around := by
      apply isOpen.resolve_left
      simp only [isOutside, Bool.and_eq_true, beq_iff_eq] at outside
      omega
    have left := mem_withoutEmpty mem
    split
    · rename_i empty
      rw [empty] at left
      cases left
    · rename_i sized
      rw [sized] at left
      exact ⟨_, rfl, .inr (by simpa using left)⟩
    · exact ⟨_, rfl, .inr List.mem_cons_self⟩
  · exact ⟨_, rfl, isOpen⟩

theorem isOpen_enter_none (due : Due) : (due.enter none).IsOpen := by
  rw [enter]
  split
  · exact .inr List.mem_cons_self
  split
  · have : 0 < largest := by decide
    left
    dsimp only
    omega
  · exact .inr List.mem_cons_self

theorem IsOpen.enter {due : Due} (isOpen : due.IsOpen) (items : Option Nat) :
    (due.enter items).IsOpen := by
  match items with
  | none => exact isOpen_enter_none due
  | some 0 => exact isOpen
  | some (count + 1) =>
      rw [Due.enter]
      · split
        · exact isOpen.imp_right (List.mem_cons_of_mem _)
        · exact isOpen
      · simp

theorem IsOpen.exists_after? {due : Due} {token : Token} (isOpen : due.IsOpen)
    (noBreak : token ≠ .breakMark) :
    ∃ next, due.after? token = some next ∧ next.IsOpen := by
  cases token with
  | leaf => exact isOpen.exists_count?
  | container items => exact (isOpen.enter items).exists_count?
  | tag => exact ⟨due, rfl, isOpen⟩
  | breakMark => exact absurd rfl noBreak

theorem IsOpen.isDone_eq {due : Due} (isOpen : due.IsOpen) : due.isDone = false := by
  rw [isDone]
  rcases isOpen with isOpen | mem
  · simp [Nat.ne_of_gt isOpen]
  · simp [List.isEmpty_eq_false_iff.mpr (List.ne_nil_of_mem mem)]

theorem IsOpen.mem_breakMark {due : Due} {tokens : List Token} (isOpen : due.IsOpen)
    (passes : due.Passes tokens) : .breakMark ∈ tokens := by
  induction passes with
  | done isDone =>
      rw [isOpen.isDone_eq] at isDone
      cases isDone
  | @last due token isDue ended =>
      by_cases isBreak : token = .breakMark
      · rw [isBreak]
        exact List.mem_cons_self
      · rcases isOpen.exists_after? isBreak with ⟨next, counted, _⟩
        rw [ended] at counted
        cases counted
  | @step due next token tokens isDue counted later induction =>
      by_cases isBreak : token = .breakMark
      · rw [isBreak]
        exact List.mem_cons_self
      · rcases isOpen.exists_after? isBreak with ⟨other, counts, stillOpen⟩
        rw [counted] at counts
        cases counts
        exact List.mem_cons_of_mem _ (induction stillOpen)

/-! Without a break, the counter of due items is exact. -/

/-- So many items are due, and no container is open. -/
def counting (count : Nat) : Due := ⟨count, 0, []⟩

/-- The items that belong to a token are due in its place, unless there are too many of
them. -/
theorem exists_after?_counting {token : Token} {items : Nat}
    (belong : token.items? = some items)
    (count : Nat) :
    ∃ next, (counting (count + 1)).after? token = some (counting next) ∧
      (next = count + items ∨ largest ≤ next + 1) := by
  match token, belong with
  | .leaf, rfl => exact ⟨count, rfl, .inl rfl⟩
  | .tag, rfl => exact ⟨count + 1, rfl, .inl rfl⟩
  | .container (some 0), rfl => exact ⟨count, rfl, .inl rfl⟩
  | .container (some (inside + 1)), rfl =>
      have full : 0 < largest := by decide
      have entered : (counting (count + 1)).enter (some (inside + 1)) =
          counting (min (count + 1 + (inside + 1)) largest) := rfl
      have isDue :
          (counting (min (count + 1 + (inside + 1)) largest)).isOutside = false := by
        simp only [isOutside, counting, Bool.and_eq_false_imp, beq_iff_eq]
        omega
      refine ⟨min (count + 1 + (inside + 1)) largest - 1, ?_, by omega⟩
      rw [after?, entered, count?, isDue]
      rfl

/-- A container that does not tell its items is open from then on. -/
theorem exists_after?_open {token : Token} (untold : token.items? = none)
    (noBreak : token ≠ .breakMark)
    (due : Due) : ∃ next, due.after? token = some next ∧ next.IsOpen := by
  match token, untold with
  | .container none, _ => exact (isOpen_enter_none due).exists_count?
  | .breakMark, _ => exact absurd rfl noBreak

theorem after?_counting_ne_none {token : Token} (noBreak : token ≠ .breakMark)
    (count : Nat) :
    (counting (count + 1)).after? token ≠ none := by
  cases belong : token.items? with
  | none =>
      rcases exists_after?_open belong noBreak (counting (count + 1)) with
        ⟨next, counted, _⟩
      simp [counted]
  | some items =>
      rcases exists_after?_counting belong count with ⟨next, counted, _⟩
      simp [counted]

end Due

/-- The items of a definite container are written after its head, those of a map in
pairs. -/
theorem IsToken.container_cases {items : Nat}
    (isToken : IsToken (.container (some items)) bytes) :
    IsHead arrayType items bytes ∨
      ∃ entries, items = min (2 * entries) largest ∧ IsHead mapType entries bytes := by
  generalize same : Token.container (some items) = token at isToken
  cases isToken with
  | array isHead =>
      cases same
      cases isHead with
      | sized isHead => exact .inl isHead
  | map isHead =>
      cases isHead with
      | sized isHead =>
          cases same
          exact .inr ⟨_, rfl, isHead⟩
      | openEnded => cases same
  | number | string | tag | breakMark | simple => cases same

/-- A token with the items that belong to it is an item. -/
theorem IsToken.isItem_append {token : Token} {inside : List Bytes}
    (isToken : IsToken token bytes)
    (belong : token.items? = some inside.length) (short : inside.length < largest)
    (areItems : ∀ item ∈ inside, IsItem item) : IsItem (bytes ++ inside.flatten) := by
  cases token with
  | leaf =>
      have none : inside = [] :=
        List.eq_nil_of_length_eq_zero (Option.some.inj belong).symm
      rw [none, List.flatten_nil, List.append_nil]
      exact .leaf isToken
  | container items =>
      cases belong
      rcases isToken.container_cases with isHead | ⟨entries, pairs, isHead⟩
      · exact .array isHead areItems
      · exact .map isHead (by omega) areItems
  | tag =>
      rcases List.length_eq_one_iff.mp (Option.some.inj belong).symm with ⟨item, rfl⟩
      cases isToken with
      | tag isHead =>
          rw [List.flatten_singleton]
          exact .tag isHead (areItems item List.mem_cons_self)
  | breakMark => cases belong

/-- The bytes are so many items, one after the other. -/
def AreItems (count : Nat) (bytes : Bytes) : Prop :=
  ∃ items : List Bytes, items.length = count ∧ (∀ item ∈ items, IsItem item) ∧
    bytes = items.flatten

/-- There are no more items than bytes. -/
theorem AreItems.le_length {count : Nat} (areItems : AreItems count bytes) :
    count ≤ bytes.length := by
  rcases areItems with ⟨items, rfl, all, rfl⟩
  induction items with
  | nil => simp
  | cons item items induction =>
      rw [List.forall_mem_cons] at all
      have := List.length_pos_iff.mpr all.1.ne_nil
      have := induction all.2
      rw [List.length_cons, List.flatten_cons, List.length_append]
      omega

/-- The first of the items after a token belong to it. -/
theorem AreItems.cons {token : Token} {inside count : Nat} {first : Bytes}
    (isToken : IsToken token first)
    (belong : token.items? = some inside) (short : inside < largest)
    (areItems : AreItems (inside + count) bytes) :
    AreItems (count + 1) (first ++ bytes) := by
  rcases areItems with ⟨items, length, all, rfl⟩
  have takes : (items.take inside).length = inside := by
    rw [List.length_take]
    omega
  refine ⟨(first ++ (items.take inside).flatten) :: items.drop inside, ?_, ?_, ?_⟩
  · rw [List.length_cons, List.length_drop, length, Nat.add_sub_cancel_left]
  · rw [List.forall_mem_cons]
    refine ⟨isToken.isItem_append (by rw [takes, belong]) (by omega) ?_, ?_⟩
    · exact fun item mem => all item (List.mem_of_mem_take mem)
    · exact fun item mem => all item (List.mem_of_mem_drop mem)
  · rw [List.flatten_cons, List.append_assoc, ← List.flatten_append,
      List.take_append_drop]

/-- Without a break, so many items are passed as are due. -/
theorem Due.Passes.areItems {due : Due} {tokens : List Token} {count : Nat}
    (passes : due.Passes tokens)
    (counts : due = .counting count) (noBreak : .breakMark ∉ tokens)
    (areTokens : AreTokens tokens bytes)
    (short : bytes.length < largest) : AreItems count bytes := by
  -- Every token leaves a state that counts, because a container that opened would have
  -- to be closed.
  induction passes generalizing count bytes with
  | done isDone =>
      cases areTokens with
      | nil =>
          subst counts
          have none : count = 0 := by simpa [Due.isDone, Due.counting] using isDone
          exact ⟨[], none.symm, nofun, rfl⟩
  | @last due token isDue ended =>
      subst counts
      cases count with
      | zero => cases isDue
      | succ count =>
          have other : token ≠ .breakMark :=
            fun same => noBreak (by rw [same]; exact List.mem_cons_self)
          exact absurd ended (after?_counting_ne_none other count)
  | @step due next token tokens isDue counted later induction =>
      subst counts
      rw [List.mem_cons, not_or] at noBreak
      cases count with
      | zero => cases isDue
      | succ count =>
          cases belong : token.items? with
          | none =>
              rcases exists_after?_open belong (Ne.symm noBreak.1)
                (counting (count + 1)) with
                ⟨_, counts, isOpen⟩
              rw [counted] at counts
              cases counts
              exact absurd (isOpen.mem_breakMark later) noBreak.2
          | some inside =>
              rcases exists_after?_counting belong count with ⟨_, counts, exact⟩
              rw [counted] at counts
              cases counts
              cases areTokens with
              | cons isToken areLater =>
                  have some := List.length_pos_iff.mpr isToken.ne_nil
                  rw [List.length_append] at short
                  have areItems := induction rfl noBreak.2 areLater (by omega)
                  -- Too many items would need more bytes than there are.
                  have fewer := areItems.le_length
                  rcases exact.resolve_right (by omega) with rfl
                  rw [Nat.add_comm] at areItems
                  exact .cons isToken belong (by omega) areItems

/-- What is passed over is an item, unless it has a break. -/
theorem IsPassed.isItem_or_hasBreak (passed : IsPassed bytes)
    (short : bytes.length < largest) :
    IsItem bytes ∨ HasBreak bytes := by
  rcases skip?_eq_some_iff.mp (passed []) with ⟨tokens, _, passes, areTokens, joined⟩
  rcases List.append_cancel_right joined
  by_cases isBreak : .breakMark ∈ tokens
  · exact .inr ⟨tokens, areTokens, isBreak⟩
  · rcases passes.areItems rfl isBreak areTokens short with ⟨items, one, areItems, rfl⟩
    rcases List.length_eq_one_iff.mp one with ⟨item, rfl⟩
    rw [List.flatten_singleton]
    exact .inl (areItems item List.mem_cons_self)

end ContractCode.Cbor
