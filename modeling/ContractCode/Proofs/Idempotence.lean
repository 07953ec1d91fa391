import ContractCode.Proofs.Filling
import Mathlib.Data.List.Basic

/-! # Resolving twice

Once a resolver has gone through its references, the code has in each of them what is on
chain, and no other filling takes that away. A second run over the same references finds
nothing to do. Placeholders are the exception: they belong to the compiled code, which
does not change when they are filled, so a second run fills them with the same bytes and
logs them once more.
-/

namespace ContractCode

/-! ## Settled spans -/

/-- The code has in the span what is on chain there. -/
structure Settled (onChain : Bytes) (span : Span) (code : Bytes) : Prop where
  inside : span.Within code.length
  same : code.slice span = onChain.slice span

namespace Settled

variable {onChain : Bytes} {span : Span} {populated : PopulatedCode}

theorem of_fill (filling : Filling) (present : filling.span.Within onChain.length)
    (reaches : filling.span.start ≤ populated.code.length) :
    Settled onChain filling.span (populated.fill onChain filling).code where
  inside := by
    rw [PopulatedCode.length_fill_code present reaches]
    exact Nat.le_max_right _ _
  same := by
    apply Bytes.slice_congr
    intro index covers
    exact PopulatedCode.getElem?_fill_code_of_covers present reaches covers

/-- Fillings that overlap bring the same bytes, so a settled span stays settled. -/
theorem fill {filling : Filling} (settled : Settled onChain span populated.code)
    (present : filling.span.Within onChain.length)
    (reaches : filling.span.start ≤ populated.code.length) :
    Settled onChain span (populated.fill onChain filling).code where
  inside := by
    rw [PopulatedCode.length_fill_code present reaches]
    exact Nat.le_trans settled.inside (Nat.le_max_left _ _)
  same := by
    apply Bytes.slice_congr
    intro index covers
    by_cases filled : filling.span.Covers index
    · exact PopulatedCode.getElem?_fill_code_of_covers present reaches filled
    · rw [PopulatedCode.getElem?_fill_code_of_not_covers present reaches filled]
      exact Bytes.getElem?_eq_of_slice settled.same covers

end Settled

/-! ## Call protection -/

theorem CallProtection.resolve_resolve (onChain : Bytes) (populated : PopulatedCode) :
    resolve onChain (resolve onChain populated) = resolve onChain populated := by
  have first := step_resolve onChain populated
  generalize resolve onChain populated = next at first ⊢
  have second := step_resolve onChain next
  generalize resolve onChain next = last at second ⊢
  cases second with
  | kept same => rfl
  | filled awaits pushes differs =>
      cases first with
      | filled before _ _ =>
          exact absurd (Settled.of_fill filling pushes.2 before.1.2.start_le).same differs
      | kept same => exact absurd (same awaits pushes) differs

/-! ## Immutables

A reference at the end of the code makes it longer, so in a second run the reference
lies inside the code, unless it is empty. -/

namespace Immutable

variable {style : Auxdata.Style} {onChain : Bytes} {populated next : PopulatedCode}
  {target other : Target} {references : ImmutableReferences}

theorem Step.settled (step : Step style onChain populated target next)
    (present : target.reference.span.Within onChain.length) :
    Settled onChain target.reference.span next.code := by
  cases step with
  | missing absent => exact absurd present absent
  | appended present atEnd =>
      exact .of_fill (insertion target) present
        (Nat.le_of_eq (appends_eq_true_iff.mp atEnd).2)
  | kept present notAtEnd inside same => exact ⟨inside, same⟩
  | replaced present notAtEnd inside differs =>
      exact .of_fill (replacement target) present inside.start_le

theorem Step.keeps_settled {span : Span} (step : Step style onChain populated other next)
    (settled : Settled onChain span populated.code) : Settled onChain span next.code := by
  cases step with
  | missing absent => exact settled
  | appended present atEnd =>
      exact settled.fill present (Nat.le_of_eq (appends_eq_true_iff.mp atEnd).2)
  | kept present notAtEnd inside same => exact settled
  | replaced present notAtEnd inside differs =>
      exact settled.fill present inside.start_le

theorem settled_of_resolve
    (resolved : resolve style onChain references populated = .ok next)
    (listed : target ∈ orderedTargets references)
    (present : target.reference.span.Within onChain.length) :
    Settled onChain target.reference.span next.code := by
  rcases Run.step_of_mem resolved listed with
    ⟨_, later, _, after, _, _, stepped, ranLater⟩
  apply Run.preserves
    (fun state => Settled onChain target.reference.span state.code) _ ranLater
  · exact (resolveTarget_eq_ok_iff.mp stepped).settled present
  · intro state other last _ settled stepped
    exact (resolveTarget_eq_ok_iff.mp stepped).keeps_settled settled

theorem resolveTarget_of_settled (filled : 0 < target.reference.span.length)
    (settled : target.reference.span.Within onChain.length →
      Settled onChain target.reference.span populated.code) :
    resolveTarget style onChain populated target = .ok populated := by
  rw [resolveTarget_eq_ok_iff]
  by_cases present : target.reference.span.Within onChain.length
  · have inside := (settled present).inside
    exact .kept present (not_appends_of_within filled inside) inside
      (settled present).same
  · exact .missing present

/-- A second run over references that are not empty changes nothing. -/
theorem resolve_resolved
    (filled : ∀ id reference, Lists references id reference → 0 < reference.span.length)
    (resolved : resolve style onChain references populated = .ok next) :
    resolve style onChain references next = .ok next := by
  apply Run.stays
  intro target listed
  apply resolveTarget_of_settled
  · exact filled target.id target.reference (mem_orderedTargets_iff.mp listed)
  · exact settled_of_resolve resolved listed

end Immutable

/-- The call protection and the immutables are resolved once and for all: a second run
changes neither the code nor the log nor the values. -/
theorem protection_and_immutables_idempotent (style : Auxdata.Style) (onChain : Bytes)
    (populated : PopulatedCode) {references : ImmutableReferences}
    (filled : ∀ id reference, Immutable.Lists references id reference →
      0 < reference.span.length) :
    CallProtection.resolve onChain (CallProtection.resolve onChain populated) =
        CallProtection.resolve onChain populated ∧
      ∀ next, Immutable.resolve style onChain references populated = .ok next →
        Immutable.resolve style onChain references next = .ok next := by
  refine ⟨CallProtection.resolve_resolve onChain populated, ?_⟩
  intro next resolved
  exact Immutable.resolve_resolved filled resolved

/-! A protected code with two immutables behind it and references that overlap. -/

def protectedStart : Bytes := 0x73 :: List.replicate 20 0

def protectedStartOnChain : Bytes := 0x73 :: List.replicate 20 1 ++ [2, 3, 4, 5, 6, 7]

def overlappingReferences : ImmutableReferences :=
  (Dictionary.empty.insert "0" [⟨3, 4⟩, ⟨5, 4⟩, ⟨21, 4⟩]).insert "1" [⟨23, 2⟩, ⟨25, 2⟩]

def protectedStartResolved : PopulatedCode where
  code :=
    0x73 :: [0, 0] ++ List.replicate 6 1 ++ List.replicate 12 0 ++ [2, 3, 4, 5, 6, 7]
  transformations :=
    [.replaceImmutable 3 "0", .replaceImmutable 5 "0", .insertImmutable 21 "0",
      .insertImmutable 25 "1"]
  values :=
    { immutables :=
        (Dictionary.empty.insert "0" (List.replicate 4 1)).insert "1" [6, 7] }

theorem protectedStart_idempotent :
    (∀ id reference, Immutable.Lists overlappingReferences id reference →
        0 < reference.span.length) ∧
      Immutable.resolve .vyper protectedStartOnChain overlappingReferences
        (.ofCode protectedStart) =
        .ok protectedStartResolved ∧
      CallProtection.resolve protectedStartOnChain
          (CallProtection.resolve protectedStartOnChain (.ofCode protectedStart)) =
        CallProtection.resolve protectedStartOnChain (.ofCode protectedStart) ∧
      Immutable.resolve .vyper protectedStartOnChain overlappingReferences
        protectedStartResolved =
        .ok protectedStartResolved := by
  have filled : ∀ target ∈ Immutable.targets overlappingReferences,
      0 < target.reference.span.length := by decide +kernel
  have filled : ∀ id reference, Immutable.Lists overlappingReferences id reference →
      0 < reference.span.length := by
    intro id reference listed
    exact filled ⟨id, reference⟩ (Immutable.mem_targets_iff.mpr listed)
  have ordered : Immutable.orderedTargets overlappingReferences =
      Immutable.targets overlappingReferences :=
    List.mergeSort_of_pairwise (by decide +kernel)
  have resolved : Immutable.resolve .vyper protectedStartOnChain overlappingReferences
      (.ofCode protectedStart) = .ok protectedStartResolved := by
    rw [Immutable.resolve, ordered]
    decide +kernel
  have idempotent := protection_and_immutables_idempotent .vyper protectedStartOnChain
    (.ofCode protectedStart) filled
  exact ⟨filled, resolved, idempotent.1, idempotent.2 _ resolved⟩

/-! ## Libraries

A reference at a placeholder is linked whatever the code has in it. -/

/-- The code with more entries in its log. -/
def PopulatedCode.logAll (populated : PopulatedCode) (entries : List Transformation) :
    PopulatedCode :=
  { populated with transformations := populated.transformations ++ entries }

namespace PopulatedCode

@[simp] theorem logAll_nil (populated : PopulatedCode) :
    populated.logAll [] = populated := by
  rw [logAll, List.append_nil]

theorem logAll_logAll (populated : PopulatedCode) (entries others : List Transformation) :
    (populated.logAll entries).logAll others = populated.logAll (entries ++ others) := by
  rw [logAll, logAll, logAll, List.append_assoc]

theorem logAll_eq_self_iff {populated : PopulatedCode} {entries : List Transformation} :
    populated.logAll entries = populated ↔ entries = [] := by
  constructor
  · intro same
    exact List.append_right_eq_self.mp (congrArg transformations same)
  · rintro rfl
    exact logAll_nil populated

end PopulatedCode

namespace Library

variable {placeholders : List Placeholder} {onChain : Bytes}
  {populated next linked : PopulatedCode}
  {target other : Target} {references : LinkReferences}

/-- The reference is there on chain and starts at a placeholder of the compiled code. -/
def IsMarked (placeholders : List Placeholder) (onChain : Bytes)
    (target : Target) : Prop :=
  target.reference.span.Within onChain.length ∧
    CompiledCode.placeholderAt? placeholders target.reference.span.start ≠ none

instance (placeholders : List Placeholder) (onChain : Bytes) (target : Target) :
    Decidable (IsMarked placeholders onChain target) :=
  inferInstanceAs (Decidable (_ ∧ _))

/-- At a placeholder the code makes no difference. -/
theorem decision_of_isMarked (marked : IsMarked placeholders onChain target)
    (first second : PopulatedCode) :
    decision placeholders onChain first target =
      decision placeholders onChain second target := by
  rw [decision, decision, decisionFor, decisionFor]
  cases found : CompiledCode.placeholderAt? placeholders target.reference.span.start with
  | none => exact absurd found marked.2
  | some placeholder => rfl

/-- The library has its address in the code, and if the code had a placeholder there,
the address is recorded. -/
structure IsLinked (placeholders : List Placeholder) (onChain : Bytes) (target : Target)
    (populated : PopulatedCode) : Prop where
  inside : target.reference.span.Within populated.code.length
  settled : target.reference.span.Within onChain.length →
    Settled onChain target.reference.span populated.code
  links : IsMarked placeholders onChain target →
    decision placeholders onChain populated target = .link
  recorded : IsMarked placeholders onChain target →
    populated.values.libraries.contains target.name = true

theorem Step.isLinked (step : Step placeholders onChain populated target next) :
    IsLinked placeholders onChain target next := by
  cases step with
  | missing inside absent =>
      exact ⟨inside,
        fun present => absurd present absent, fun marked => absurd marked.1 absent,
        fun marked => absurd marked.1 absent⟩
  | kept inside present keeps =>
      rcases decision_eq_keep_iff.mp keeps with ⟨unmarked, same⟩
      exact ⟨inside, fun _ => ⟨inside, same⟩, fun marked => absurd unmarked marked.2,
        fun marked => absurd unmarked marked.2⟩
  | linked inside present links =>
      have settled := Settled.of_fill (linking target) present inside.start_le
      exact ⟨settled.inside, fun _ => settled,
        fun marked => (decision_of_isMarked marked _ populated).trans links,
        fun _ => Dictionary.contains_insertNew_self _ _ _⟩

theorem IsLinked.keep (linked : IsLinked placeholders onChain target populated)
    (step : Step placeholders onChain populated other next) :
    IsLinked placeholders onChain target next := by
  cases step with
  | missing inside absent => exact linked
  | kept inside present keeps => exact linked
  | linked inside present links =>
      refine ⟨?_, ?_, ?_, ?_⟩
      · rw [PopulatedCode.length_fill_code present inside.start_le]
        exact Nat.le_trans linked.inside (Nat.le_max_left _ _)
      · intro targetPresent
        exact (linked.settled targetPresent).fill present inside.start_le
      · intro marked
        exact (decision_of_isMarked marked _ populated).trans (linked.links marked)
      · intro marked
        exact Dictionary.contains_insertNew (linked.recorded marked) _ _

theorem isLinked_of_resolve
    (resolved : resolve placeholders onChain references populated = .ok next)
    (listed : target ∈ targets references) :
    IsLinked placeholders onChain target next := by
  rcases Run.step_of_mem resolved listed with
    ⟨_, later, _, after, _, _, stepped, ranLater⟩
  apply Run.preserves (IsLinked placeholders onChain target) _ ranLater
  · exact (resolveTarget_eq_ok_iff.mp stepped).isLinked
  · intro state other last _ linked stepped
    exact linked.keep (resolveTarget_eq_ok_iff.mp stepped)

theorem IsLinked.fill_eq (linked : IsLinked placeholders onChain target populated)
    (marked : IsMarked placeholders onChain target) :
    populated.fill onChain (linking target) =
      populated.logAll [(linking target).entry] := by
  have code : populated.code.overwrite target.reference.span.start
      (onChain.slice target.reference.span) = populated.code := by
    rw [← (linked.settled marked.1).same, Bytes.overwrite_slice linked.inside]
  have values :
      populated.values.addLibrary target.name (onChain.slice target.reference.span) =
      populated.values := by
    rw [RecordedValues.addLibrary,
      Dictionary.insertNew_of_contains (linked.recorded marked)]
  exact congr (congrFun (congrArg PopulatedCode.mk code) _) values

theorem IsLinked.resolveTarget_eq
    (linked : IsLinked placeholders onChain target populated) :
    resolveTarget placeholders onChain populated target =
      .ok (populated.logAll
        (if IsMarked placeholders onChain target then [(linking target).entry]
          else [])) := by
  rw [resolveTarget_eq_ok_iff]
  split
  · rename_i marked
    rw [← linked.fill_eq marked]
    exact .linked linked.inside marked.1 (linked.links marked)
  · rename_i unmarked
    rw [PopulatedCode.logAll_nil]
    by_cases present : target.reference.span.Within onChain.length
    · apply Step.kept linked.inside present
      apply decision_eq_keep_iff.mpr ⟨?_, (linked.settled present).same⟩
      exact Decidable.byContradiction fun found => unmarked ⟨present, found⟩
    · exact .missing linked.inside present

/-- What the log has does not matter to the linking. -/
theorem IsLinked.logAll (linked : IsLinked placeholders onChain target populated)
    (entries : List Transformation) :
    IsLinked placeholders onChain target (populated.logAll entries) :=
  ⟨linked.inside, linked.settled, linked.links, linked.recorded⟩

def markedTargets (placeholders : List Placeholder) (onChain : Bytes)
    (targets : List Target) :
    List Target :=
  targets.filter fun target => IsMarked placeholders onChain target

theorem run_of_isLinked {items : List Target}
    (linked : ∀ target ∈ items, IsLinked placeholders onChain target populated) :
    items.foldlM (resolveTarget placeholders onChain) populated =
      .ok (populated.logAll
        ((markedTargets placeholders onChain items).map fun target =>
          (linking target).entry)) := by
  induction items generalizing populated with
  | nil => exact congrArg Except.ok (PopulatedCode.logAll_nil populated).symm
  | cons target items induction =>
      rcases List.forall_mem_cons.mp linked with ⟨first, others⟩
      apply Run.cons_eq_ok_iff.mpr ⟨_, first.resolveTarget_eq, ?_⟩
      rw [induction fun target member => (others target member).logAll _,
        PopulatedCode.logAll_logAll]
      by_cases marked : IsMarked placeholders onChain target
      · simp [markedTargets, marked]
      · simp [markedTargets, marked]

theorem resolve_again
    (resolved : resolve placeholders onChain references populated = .ok linked) :
    resolve placeholders onChain references linked =
      .ok (linked.logAll ((markedTargets placeholders onChain (targets references)).map
        fun target => (linking target).entry)) := by
  apply run_of_isLinked
  intro target listed
  exact isLinked_of_resolve resolved listed

/-- A second run keeps the code and the values, and it logs every reference at a
placeholder once more. So it changes nothing exactly if no reference that is there on
chain starts at a placeholder. -/
theorem resolve_linked
    (resolved : resolve placeholders onChain references populated = .ok linked) :
    resolve placeholders onChain references linked =
        .ok { linked with
          transformations := linked.transformations ++
            (markedTargets placeholders onChain (targets references)).map
              fun target => .library target.reference.span.start target.name } ∧
      (resolve placeholders onChain references linked = .ok linked ↔
        ∀ target ∈ targets references, target.reference.span.Within onChain.length →
          CompiledCode.placeholderAt? placeholders
            target.reference.span.start = none) := by
  have again := resolve_again resolved
  refine ⟨again, ?_⟩
  rw [again, Except.ok.injEq, PopulatedCode.logAll_eq_self_iff, List.map_eq_nil_iff,
    markedTargets, List.filter_eq_nil_iff]
  constructor
  · intro unmarked target listed present
    apply Decidable.byContradiction
    intro found
    exact unmarked target listed (decide_eq_true ⟨present, found⟩)
  · intro unmarked target listed isMarked
    have marked : IsMarked placeholders onChain target := of_decide_eq_true isMarked
    exact marked.2 (unmarked target listed marked.1)

/-! A library at a placeholder. -/

def markedCode : CompiledCode where
  code := 0x60 :: List.replicate 20 0
  placeholders := [⟨1, namePlaceholder "a.sol:L"⟩]

def markedOnChain : Bytes := 0x60 :: List.replicate 20 1

def markedReferences : LinkReferences :=
  Dictionary.empty.insert "a.sol" (Dictionary.empty.insert "L" [⟨1, 20⟩])

def markedLinked : PopulatedCode where
  code := markedOnChain
  transformations := [.library 1 "a.sol:L"]
  values := { libraries := Dictionary.empty.insert "a.sol:L" (List.replicate 20 1) }

theorem targets_markedReferences : targets markedReferences = [⟨"a.sol:L", ⟨1, 20⟩⟩] := by
  decide +kernel

theorem resolve_markedCode :
    resolve markedCode.placeholders markedOnChain markedReferences
      (.ofCode markedCode.code) =
      .ok markedLinked := by
  have links : decision markedCode.placeholders markedOnChain (.ofCode markedCode.code)
      ⟨"a.sol:L", ⟨1, 20⟩⟩ = .link :=
    decision_eq_link_of_placeholder rfl (isPlaceholderOf_namePlaceholder "a.sol:L")
  have filled : (PopulatedCode.ofCode markedCode.code).fill markedOnChain
      (linking ⟨"a.sol:L", ⟨1, 20⟩⟩) = markedLinked := by decide +kernel
  rw [resolve, targets_markedReferences, ← filled]
  apply Run.cons_eq_ok_iff.mpr ⟨_, ?_, rfl⟩
  exact resolveTarget_eq_ok_iff.mpr (.linked (by decide) (by decide) links)

theorem resolve_linked_markedCode :
    resolve markedCode.placeholders markedOnChain markedReferences
      (.ofCode markedCode.code) =
        .ok markedLinked ∧
      resolve markedCode.placeholders markedOnChain markedReferences markedLinked =
        .ok { markedLinked with transformations :=
          [.library 1 "a.sol:L", .library 1 "a.sol:L"] } ∧
      (resolve markedCode.placeholders markedOnChain markedReferences markedLinked =
          .ok markedLinked ↔
        ∀ target ∈ targets markedReferences,
          target.reference.span.Within markedOnChain.length →
          CompiledCode.placeholderAt? markedCode.placeholders
            target.reference.span.start = none) := by
  rcases resolve_linked resolve_markedCode with ⟨again, unchanged⟩
  rw [targets_markedReferences] at again
  exact ⟨resolve_markedCode, again, unchanged⟩

/-- The linking of a placeholder is logged again by a second run. -/
theorem not_unchanged_of_resolve :
    ¬ ∀ (placeholders : List Placeholder) (onChain : Bytes) (references : LinkReferences)
        (populated linked : PopulatedCode),
      resolve placeholders onChain references populated = .ok linked →
        resolve placeholders onChain references linked = .ok linked := by
  intro all
  have same :=
    (resolve_again resolve_markedCode).symm.trans (all _ _ _ _ _ resolve_markedCode)
  rw [targets_markedReferences, Except.ok.injEq, PopulatedCode.logAll_eq_self_iff] at same
  cases same

end Library

end ContractCode
