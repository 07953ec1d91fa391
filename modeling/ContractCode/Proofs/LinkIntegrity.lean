import ContractCode.Proofs.FaithfulValues
import ContractCode.Proofs.Idempotence

/-! # When the linking ends well

A reference that is there on chain is in order if it starts at a placeholder of its
library, or at none and has zeros or already the address. What the linking fills at one
reference lies outside of all others that share no byte with it, so it finds each of
them as it was. The linking then fails exactly if a reference is not in order or ends
beyond the code, and what it fills is known from the code that it starts with.
-/

namespace ContractCode.Library

variable {placeholders : List Placeholder} {onChain code other : Bytes}
  {populated next : PopulatedCode} {target : Target} {references : LinkReferences}
  {items : List Target}

/-! ## One reference -/

theorem isPlaceholderOf_eq_true_iff {placeholder name : String} :
    isPlaceholderOf placeholder name = true ↔
      placeholder = hashPlaceholder name ∨ placeholder = namePlaceholder name := by
  rw [isPlaceholderOf, Bool.or_eq_true, beq_iff_eq, beq_iff_eq]

/-- What the code has at the reference may be replaced by the address, or it is the
address. -/
def HasOwnContent (placeholders : List Placeholder) (onChain code : Bytes)
    (target : Target) : Prop :=
  match CompiledCode.placeholderAt? placeholders target.reference.span.start with
  | some placeholder =>
    placeholder.text = hashPlaceholder target.name ∨
      placeholder.text = namePlaceholder target.name
  | none =>
    (code.slice target.reference.span).allZero = true ∨
      code.slice target.reference.span = onChain.slice target.reference.span

/-- The reference lies within the code and is in order if it is there on chain. -/
structure IsInOrder (placeholders : List Placeholder) (onChain code : Bytes)
    (target : Target) :
    Prop where
  inside : target.reference.span.Within code.length
  content : target.reference.span.Within onChain.length →
    HasOwnContent placeholders onChain code target

/-- The reference is there on chain, and it starts at a placeholder or has other bytes
than on chain. -/
def IsFilled (placeholders : List Placeholder) (onChain code : Bytes)
    (target : Target) : Prop :=
  target.reference.span.Within onChain.length ∧
    (CompiledCode.placeholderAt? placeholders target.reference.span.start ≠ none ∨
      code.slice target.reference.span ≠ onChain.slice target.reference.span)

instance (placeholders : List Placeholder) (onChain code : Bytes) (target : Target) :
    Decidable (IsFilled placeholders onChain code target) :=
  inferInstanceAs (Decidable (_ ∧ _))

/-- The code after the step at the reference, if that is in order. -/
def advance (placeholders : List Placeholder) (onChain : Bytes)
    (populated : PopulatedCode)
    (target : Target) : PopulatedCode :=
  if IsFilled placeholders onChain populated.code target then
    populated.fill onChain (linking target)
  else populated

/-- At a reference that is there on chain the linking refuses all contents but those in
order. -/
theorem decision_cases (placeholders : List Placeholder) (onChain : Bytes)
    (populated : PopulatedCode)
    (target : Target) :
    (HasOwnContent placeholders onChain populated.code target ∧
      (decision placeholders onChain populated target = .keep ∨
        (decision placeholders onChain populated target = .link ∧
          (CompiledCode.placeholderAt? placeholders target.reference.span.start ≠ none ∨
            populated.code.slice target.reference.span ≠
              onChain.slice target.reference.span)))) ∨
    (¬ HasOwnContent placeholders onChain populated.code target ∧
      ∃ refused, decision placeholders onChain populated target = .refuse refused) := by
  rw [decision, decisionFor, HasOwnContent]
  cases found : CompiledCode.placeholderAt? placeholders target.reference.span.start with
  | some placeholder =>
      dsimp only
      rw [← isPlaceholderOf_eq_true_iff]
      split
      · rename_i own
        exact .inl ⟨own, .inr ⟨rfl, .inl (Option.some_ne_none _)⟩⟩
      · rename_i foreign
        exact .inr ⟨foreign, _, rfl⟩
  | none =>
      dsimp only
      split
      · rename_i same
        exact .inl ⟨.inr same, .inl rfl⟩
      · rename_i differs
        split
        · rename_i zero
          exact .inl ⟨.inl zero, .inr ⟨rfl, .inr differs⟩⟩
        · rename_i content
          exact .inr ⟨not_or.mpr ⟨content, differs⟩, _, rfl⟩

theorem hasOwnContent_of_keep
    (keeps : decision placeholders onChain populated target = .keep) :
    HasOwnContent placeholders onChain populated.code target := by
  rcases decision_eq_keep_iff.mp keeps with ⟨unmarked, same⟩
  rw [HasOwnContent, unmarked]
  exact .inr same

theorem not_isFilled_of_keep
    (keeps : decision placeholders onChain populated target = .keep) :
    ¬ IsFilled placeholders onChain populated.code target := by
  rcases decision_eq_keep_iff.mp keeps with ⟨unmarked, same⟩
  rintro ⟨_, marked | differs⟩
  · exact marked unmarked
  · exact differs same

theorem resolveTarget_eq_ok_iff_isInOrder :
    resolveTarget placeholders onChain populated target = .ok next ↔
      IsInOrder placeholders onChain populated.code target ∧
        next = advance placeholders onChain populated target := by
  rw [advance]
  constructor
  · intro resolved
    cases resolveTarget_eq_ok_iff.mp resolved with
    | missing inside absent =>
        exact ⟨⟨inside, fun present => absurd present absent⟩,
          (if_neg fun fills => absent fills.1).symm⟩
    | kept inside present keeps =>
        exact ⟨⟨inside, fun _ => hasOwnContent_of_keep keeps⟩,
          (if_neg (not_isFilled_of_keep keeps)).symm⟩
    | linked inside present links =>
        rcases decision_cases placeholders onChain populated target with
          ⟨own, keeps | ⟨_, fills⟩⟩ | ⟨_, _, refuses⟩
        · cases links.symm.trans keeps
        · exact ⟨⟨inside, fun _ => own⟩, (if_pos ⟨present, fills⟩).symm⟩
        · cases links.symm.trans refuses
  · rintro ⟨inOrder, rfl⟩
    by_cases present : target.reference.span.Within onChain.length
    · rw [resolveTarget_of_present inOrder.inside present]
      rcases decision_cases placeholders onChain populated target with
        ⟨_, keeps | ⟨links, fills⟩⟩ | ⟨foreign, _⟩
      · rw [keeps, if_neg (not_isFilled_of_keep keeps)]
      · rw [links, if_pos ⟨present, fills⟩]
      · exact absurd (inOrder.content present) foreign
    · rw [resolveTarget_of_absent inOrder.inside present,
        if_neg fun fills => present fills.1]

/-! ## References that share no byte -/

/-- Of the code only the bytes at the reference matter to it. -/
theorem isInOrder_congr (length : other.length = code.length)
    (same : other.slice target.reference.span = code.slice target.reference.span) :
    IsInOrder placeholders onChain other target ↔
      IsInOrder placeholders onChain code target := by
  have content : HasOwnContent placeholders onChain other target ↔
      HasOwnContent placeholders onChain code target := by
    rw [HasOwnContent, HasOwnContent, same]
  constructor
  · intro inOrder
    exact ⟨length ▸ inOrder.inside, fun present => content.mp (inOrder.content present)⟩
  · intro inOrder
    exact ⟨length ▸ inOrder.inside, fun present => content.mpr (inOrder.content present)⟩

theorem isFilled_congr
    (same : other.slice target.reference.span = code.slice target.reference.span) :
    IsFilled placeholders onChain other target ↔
      IsFilled placeholders onChain code target := by
  rw [IsFilled, IsFilled, same]

theorem length_advance (inOrder : IsInOrder placeholders onChain populated.code target) :
    (advance placeholders onChain populated target).code.length = populated.code.length :=
  (resolveTarget_eq_ok_iff.mp
    (resolveTarget_eq_ok_iff_isInOrder.mpr ⟨inOrder, rfl⟩)).length

/-- A step changes no byte outside of its reference. -/
theorem getElem?_advance_code
    (inOrder : IsInOrder placeholders onChain populated.code target)
    {index : Nat} (outside : ¬ target.reference.span.Covers index) :
    (advance placeholders onChain populated target).code[index]? =
      populated.code[index]? := by
  rw [advance]
  split
  · rename_i fills
    exact PopulatedCode.getElem?_fill_code_of_not_covers fills.1
      inOrder.inside.start_le outside
  · rfl

def Apart (left right : Target) : Prop :=
  left.reference.span.Disjoint right.reference.span

instance (left right : Target) : Decidable (Apart left right) :=
  inferInstanceAs (Decidable (Span.Disjoint _ _))

theorem slice_advance_code {later : Target}
    (inOrder : IsInOrder placeholders onChain populated.code target)
    (apart : Apart target later) :
    (advance placeholders onChain populated target).code.slice later.reference.span =
      populated.code.slice later.reference.span := by
  apply Bytes.slice_congr
  intro index covers
  exact getElem?_advance_code inOrder fun covered => apart index covered covers

/-- The references that are filled if each of them finds the code as it is here. -/
def filledTargets (placeholders : List Placeholder) (onChain code : Bytes)
    (items : List Target) :
    List Target :=
  items.filter fun target => IsFilled placeholders onChain code target

theorem fillAll_filledTargets_cons (placeholders : List Placeholder) (onChain : Bytes)
    (populated : PopulatedCode) (target : Target) (items : List Target) :
    populated.fillAll onChain
        ((filledTargets placeholders onChain populated.code
          (target :: items)).map linking) =
      (advance placeholders onChain populated target).fillAll onChain
        ((filledTargets placeholders onChain populated.code items).map linking) := by
  rw [advance, filledTargets, List.filter_cons]
  simp only [decide_eq_true_eq]
  split <;> rfl

/-- References that share no byte are in order, and are filled, as the first code has
them. -/
theorem run_eq_ok_iff (apart : items.Pairwise Apart) :
    items.foldlM (resolveTarget placeholders onChain) populated = .ok next ↔
      (∀ target ∈ items, IsInOrder placeholders onChain populated.code target) ∧
        next = populated.fillAll onChain
          ((filledTargets placeholders onChain populated.code items).map linking) := by
  induction items generalizing populated with
  | nil =>
      rw [Run.nil_eq_ok_iff]
      exact ⟨fun same => ⟨nofun, same.symm⟩, fun same => same.2.symm⟩
  | cons target items induction =>
      rcases List.pairwise_cons.mp apart with ⟨first, others⟩
      rw [Run.cons_eq_ok_iff, List.forall_mem_cons, fillAll_filledTargets_cons]
      simp only [resolveTarget_eq_ok_iff_isInOrder, induction others]
      -- the later references have the same bytes after the step
      have unmoved : IsInOrder placeholders onChain populated.code target →
          ((∀ later ∈ items, IsInOrder placeholders onChain
              (advance placeholders onChain populated target).code later) ↔
            ∀ later ∈ items, IsInOrder placeholders onChain populated.code later) ∧
          filledTargets placeholders onChain
              (advance placeholders onChain populated target).code items =
            filledTargets placeholders onChain populated.code items := by
        intro inOrder
        constructor
        · apply forall₂_congr
          intro later member
          exact isInOrder_congr (length_advance inOrder)
            (slice_advance_code inOrder (first later member))
        · apply List.filter_congr
          intro later member
          exact decide_eq_decide.mpr
            (isFilled_congr (slice_advance_code inOrder (first later member)))
      constructor
      · rintro ⟨_, ⟨inOrder, rfl⟩, others, rfl⟩
        rw [(unmoved inOrder).2]
        exact ⟨⟨inOrder, (unmoved inOrder).1.mp others⟩, rfl⟩
      · rintro ⟨⟨inOrder, others⟩, rfl⟩
        refine ⟨_, ⟨inOrder, rfl⟩, (unmoved inOrder).1.mpr others, ?_⟩
        rw [(unmoved inOrder).2]

/-! ## All references -/

/-- The index belongs to a reference that is there on chain. -/
def IsPresent (references : LinkReferences) (onChain : Bytes) (index : Nat) : Prop :=
  ∃ target ∈ targets references,
    target.reference.span.Within onChain.length ∧ target.reference.span.Covers index

instance (references : LinkReferences) (onChain : Bytes) (index : Nat) :
    Decidable (IsPresent references onChain index) :=
  inferInstanceAs (Decidable (∃ target ∈ targets references, _ ∧ _))

theorem getElem?_code_of_resolve
    (resolved : resolve placeholders onChain references populated = .ok next)
    (index : Nat) :
    (IsPresent references onChain index → next.code[index]? = onChain[index]?) ∧
      (¬ IsPresent references onChain index →
        next.code[index]? = populated.code[index]?) := by
  constructor
  · rintro ⟨target, listed, present, covers⟩
    exact Bytes.getElem?_eq_of_slice
      ((isLinked_of_resolve resolved listed).settled present).same covers
  · intro outside
    apply resolve_preserves
      (fun state => state.code[index]? = populated.code[index]?) _ resolved rfl
    intro state target after listed same step
    cases step with
    | missing inside absent => exact same
    | kept inside present keeps => exact same
    | linked inside present links =>
        have uncovered : ¬ (linking target).span.Covers index :=
          fun covers => outside ⟨target, mem_targets_iff.mpr listed, present, covers⟩
        exact (PopulatedCode.getElem?_fill_code_of_not_covers present inside.start_le
          uncovered).trans same

theorem length_code_of_resolve
    (resolved : resolve placeholders onChain references populated = .ok next) :
    next.code.length = populated.code.length := by
  apply resolve_preserves
    (fun state => state.code.length = populated.code.length) _ resolved rfl
  intro state target after _ same step
  exact step.length.trans same

/-- The linking of references that share no byte ends well exactly if each of them is in
order in the code that it starts with. Then the code has the bytes on chain at every
reference that is there on chain, and the log has those that were at a placeholder or
had other bytes. -/
theorem resolve_of_disjoint
    (disjoint : (targets references).Pairwise fun earlier later =>
      earlier.reference.span.Disjoint later.reference.span) :
    ((∃ next, resolve placeholders onChain references populated = .ok next) ↔
        ∀ target ∈ targets references,
          IsInOrder placeholders onChain populated.code target) ∧
      ∀ next, resolve placeholders onChain references populated = .ok next →
        next.code.length = populated.code.length ∧
        (∀ index, IsPresent references onChain index →
          next.code[index]? = onChain[index]?) ∧
        (∀ index, ¬ IsPresent references onChain index →
          next.code[index]? = populated.code[index]?) ∧
        next.transformations = populated.transformations ++
          ((targets references).filter
              fun target => IsFilled placeholders onChain populated.code target).map
            fun target => .library target.reference.span.start target.name := by
  have ran : ∀ next, resolve placeholders onChain references populated = .ok next ↔
      (∀ target ∈ targets references,
        IsInOrder placeholders onChain populated.code target) ∧
        next = populated.fillAll onChain
          ((filledTargets placeholders onChain populated.code
            (targets references)).map linking) :=
    fun next => run_eq_ok_iff disjoint
  refine ⟨⟨?_, ?_⟩, ?_⟩
  · rintro ⟨next, resolved⟩
    exact ((ran next).mp resolved).1
  · intro inOrder
    exact ⟨_, (ran _).mpr ⟨inOrder, rfl⟩⟩
  · intro next resolved
    refine ⟨length_code_of_resolve resolved,
      fun index => (getElem?_code_of_resolve resolved index).1,
      fun index => (getElem?_code_of_resolve resolved index).2, ?_⟩
    rw [((ran next).mp resolved).2, PopulatedCode.fillAll_transformations, List.map_map]
    rfl

/-! A placeholder, a library without one, an address that is there already and a
reference behind the code on chain. -/

def partlyLinked : CompiledCode where
  code := 0x60 :: List.replicate 40 0 ++ List.replicate 20 3 ++ List.replicate 20 0
  placeholders := [⟨1, namePlaceholder "a.sol:L"⟩]

def partlyLinkedOnChain : Bytes :=
  0x60 :: List.replicate 20 1 ++ List.replicate 20 2 ++ List.replicate 20 3

def fourReferences : LinkReferences :=
  Dictionary.empty.insert "a.sol"
    ((Dictionary.empty.insert "L" [⟨1, 20⟩]).insert "M" [⟨61, 20⟩, ⟨41, 20⟩, ⟨21, 20⟩])

theorem targets_fourReferences :
    targets fourReferences =
      [⟨"a.sol:L", ⟨1, 20⟩⟩, ⟨"a.sol:M", ⟨61, 20⟩⟩, ⟨"a.sol:M", ⟨41, 20⟩⟩,
        ⟨"a.sol:M", ⟨21, 20⟩⟩] := by
  decide +kernel

theorem isInOrder_partlyLinked : ∀ target ∈ targets fourReferences,
    IsInOrder partlyLinked.placeholders partlyLinkedOnChain partlyLinked.code target := by
  rw [targets_fourReferences]
  simp only [List.forall_mem_cons]
  refine ⟨⟨by decide, fun _ => .inr rfl⟩,
    ⟨by decide, fun present => absurd present (by decide)⟩,
    ⟨by decide, fun _ => .inr (by decide)⟩, ⟨by decide, fun _ => .inl (by decide)⟩, nofun⟩

theorem resolve_partlyLinked :
    ((targets fourReferences).Pairwise fun earlier later =>
        earlier.reference.span.Disjoint later.reference.span) ∧
      ∃ next, resolve partlyLinked.placeholders partlyLinkedOnChain fourReferences
          (.ofCode partlyLinked.code) = .ok next ∧
        next.code.length = 81 ∧
        next.code[30]? = partlyLinkedOnChain[30]? ∧
        next.code[70]? = partlyLinked.code[70]? ∧
        next.transformations = [.library 1 "a.sol:L", .library 21 "a.sol:M"] := by
  have disjoint : (targets fourReferences).Pairwise fun earlier later =>
      earlier.reference.span.Disjoint later.reference.span := by
    rw [targets_fourReferences]
    decide
  have linking := @resolve_of_disjoint partlyLinked.placeholders partlyLinkedOnChain
    (.ofCode partlyLinked.code) fourReferences disjoint
  rcases linking.1.mpr isInOrder_partlyLinked with ⟨next, resolved⟩
  rcases linking.2 next resolved with ⟨length, filled, kept, log⟩
  refine ⟨disjoint, next, resolved, length.trans (by decide), ?_, ?_, ?_⟩
  · exact filled 30 (by decide +kernel)
  · exact kept 70 (by decide +kernel)
  · rw [log, targets_fourReferences]
    decide

end ContractCode.Library
