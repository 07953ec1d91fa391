import ContractCode.Proofs.Idempotence

/-! # Immutables as an overlay

In whatever order the references are listed, and whether they overlap or not, the
resolver lays the bytes on chain over the code: wherever a reference that is there on
chain covers a byte, the code gets the byte on chain, and it keeps all others. What the
order decides is whether the resolver ends well. Solidity code does not grow, so it has
to contain every reference that is there on chain. Vyper code grows by what starts at
its end, so the references that it does not contain have to follow each other without a
gap.
-/

namespace ContractCode

/-- The spans cover the interval, and none of its bytes twice. -/
structure Span.Tiles (spans : List Span) (interval : Span) : Prop where
  disjoint : spans.Pairwise Span.Disjoint
  covers : ∀ index, interval.Covers index ↔ ∃ span ∈ spans, span.Covers index

/-- No span begins before the interval or ends behind it, as its first and its last byte
are in there. -/
theorem Span.Tiles.bounds {spans : List Span} {interval span : Span}
    (tiles : Span.Tiles spans interval)
    (member : span ∈ spans) (filled : 0 < span.length) :
    interval.start ≤ span.start ∧ span.stop ≤ interval.stop := by
  have first : span.Covers span.start := ⟨Nat.le_refl _, Nat.lt_add_of_pos_right filled⟩
  have last : span.Covers (span.stop - 1) := by
    simp only [Span.Covers, Span.stop]
    omega
  have ends := ((tiles.covers _).mpr ⟨span, member, last⟩).2
  exact ⟨((tiles.covers _).mpr ⟨span, member, first⟩).1, Nat.le_of_pred_lt ends⟩

namespace Immutable

variable {style : Auxdata.Style} {onChain : Bytes} {populated next : PopulatedCode}
  {references : ImmutableReferences} {target : Target} {listed rest : List Target}
  {index : Nat}

/-! ## The bytes -/

/-- A reference that is there on chain covers the byte. -/
def IsCovered (onChain : Bytes) (listed : List Target) (index : Nat) : Prop :=
  ∃ target ∈ listed, target.reference.span.Within onChain.length ∧
    target.reference.span.Covers index

theorem isCovered_cons_iff :
    IsCovered onChain (target :: rest) index ↔
      (target.reference.span.Within onChain.length ∧ target.reference.span.Covers index) ∨
        IsCovered onChain rest index :=
  List.exists_mem_cons_iff ..

theorem isCovered_singleton_iff :
    IsCovered onChain [target] index ↔
      target.reference.span.Within onChain.length ∧
      target.reference.span.Covers index := by
  rw [isCovered_cons_iff, or_iff_left]
  nofun

theorem IsCovered.lt_length (covered : IsCovered onChain listed index) :
    index < onChain.length := by
  rcases covered with ⟨target, _, present, covers⟩
  exact Nat.lt_of_lt_of_le covers.2 present

/-- The code with the bytes on chain laid over it. -/
structure IsOverlay (onChain : Bytes) (listed : List Target)
    (code overlaid : Bytes) : Prop where
  length_le : code.length ≤ overlaid.length
  covered : ∀ index, IsCovered onChain listed index → overlaid[index]? = onChain[index]?
  uncovered : ∀ index, ¬ IsCovered onChain listed index → overlaid[index]? = code[index]?

/-- The code grows only over what is covered. -/
theorem IsOverlay.isCovered_of_grown {code overlaid : Bytes}
    (overlay : IsOverlay onChain listed code overlaid) (behind : code.length ≤ index)
    (inside : index < overlaid.length) : IsCovered onChain listed index := by
  apply Classical.byContradiction
  intro uncovered
  have same := overlay.uncovered index uncovered
  rw [List.getElem?_eq_none behind, List.getElem?_eq_getElem inside] at same
  cases same

theorem IsOverlay.of_fill {filling : Filling}
    (sameSpan : filling.span = target.reference.span)
    (present : target.reference.span.Within onChain.length)
    (reaches : target.reference.span.start ≤ populated.code.length) :
    IsOverlay onChain [target] populated.code (populated.fill onChain filling).code := by
  rw [← sameSpan] at present reaches
  constructor
  · rw [PopulatedCode.length_fill_code present reaches]
    exact Nat.le_max_left _ _
  · intro index covered
    have covers := (isCovered_singleton_iff.mp covered).2
    rw [← sameSpan] at covers
    exact PopulatedCode.getElem?_fill_code_of_covers present reaches covers
  · intro index uncovered
    apply PopulatedCode.getElem?_fill_code_of_not_covers present reaches
    intro covers
    rw [sameSpan] at covers present
    exact uncovered (isCovered_singleton_iff.mpr ⟨present, covers⟩)

/-- A step leaves the code as it is only if the code has all the bytes on chain. -/
theorem Step.isOverlay (step : Step style onChain populated target next) :
    IsOverlay onChain [target] populated.code next.code := by
  cases step with
  | missing absent =>
      refine ⟨Nat.le_refl _, ?_, fun index _ => rfl⟩
      intro index covered
      exact absurd (isCovered_singleton_iff.mp covered).1 absent
  | appended present atEnd =>
      exact .of_fill rfl present (Nat.le_of_eq (appends_eq_true_iff.mp atEnd).2)
  | kept present notAtEnd inside same =>
      refine ⟨Nat.le_refl _, ?_, fun index _ => rfl⟩
      intro index covered
      exact Bytes.getElem?_eq_of_slice same (isCovered_singleton_iff.mp covered).2
  | replaced present notAtEnd inside differs => exact .of_fill rfl present inside.start_le

/-- An overlay on an overlay is an overlay: both bring the same bytes. -/
theorem IsOverlay.cons {code between overlaid : Bytes}
    (first : IsOverlay onChain [target] code between)
    (later : IsOverlay onChain rest between overlaid) :
    IsOverlay onChain (target :: rest) code overlaid := by
  constructor
  · exact Nat.le_trans first.length_le later.length_le
  · intro index covered
    by_cases again : IsCovered onChain rest index
    · exact later.covered index again
    · have covers := (isCovered_cons_iff.mp covered).resolve_right again
      rw [later.uncovered index again]
      exact first.covered index (isCovered_singleton_iff.mpr covers)
  · intro index uncovered
    rw [isCovered_cons_iff, not_or, ← isCovered_singleton_iff] at uncovered
    rw [later.uncovered index uncovered.2]
    exact first.uncovered index uncovered.1

theorem isOverlay_of_run
    (ran : listed.foldlM (resolveTarget style onChain) populated = .ok next) :
    IsOverlay onChain listed populated.code next.code := by
  induction listed generalizing populated with
  | nil =>
      rw [Run.nil_eq_ok_iff] at ran
      subst ran
      exact ⟨Nat.le_refl _, nofun, fun index _ => rfl⟩
  | cons target rest induction =>
      rcases Run.cons_eq_ok_iff.mp ran with ⟨between, stepped, ran⟩
      exact (resolveTarget_eq_ok_iff.mp stepped).isOverlay.cons (induction ran)

/-! ## References in order -/

theorem perm_orderedTargets (references : ImmutableReferences) :
    (orderedTargets references).Perm (targets references) :=
  List.mergeSort_perm _ _

theorem ascending_orderedTargets (references : ImmutableReferences) :
    (orderedTargets references).Pairwise fun earlier later =>
      earlier.reference.span.start ≤ later.reference.span.start := by
  have sorted : (orderedTargets references).Pairwise fun earlier later =>
      decide (earlier.reference.start ≤ later.reference.start) = true := by
    apply List.pairwise_mergeSort
    · intro first second third below further
      simp only [decide_eq_true_eq] at below further ⊢
      exact UInt32.le_trans below further
    · intro first second
      simp only [Bool.or_eq_true, decide_eq_true_eq]
      exact UInt32.le_total _ _
  exact sorted.imp fun ordered => UInt32.le_iff_toNat_le.mp (of_decide_eq_true ordered)

theorem isCovered_orderedTargets_iff :
    IsCovered onChain (orderedTargets references) index ↔
      IsCovered onChain (targets references) index := by
  simp only [IsCovered, (perm_orderedTargets references).mem_iff]

theorem isOverlay_of_resolve
    (resolved : resolve style onChain references populated = .ok next) :
    IsOverlay onChain (targets references) populated.code next.code := by
  have overlay := isOverlay_of_run resolved
  constructor
  · exact overlay.length_le
  · intro index covered
    exact overlay.covered index (isCovered_orderedTargets_iff.mpr covered)
  · intro index uncovered
    exact overlay.uncovered index (mt isCovered_orderedTargets_iff.mp uncovered)

/-! ## Room in the code -/

/-- A reference that is not beyond the code if it is there on chain leaves the length as
it is. -/
theorem exists_resolveTarget_of_within
    (notAtEnd : appends style populated.code target.reference.span = false)
    (inside : target.reference.span.Within onChain.length →
      target.reference.span.Within populated.code.length) :
    ∃ next, resolveTarget style onChain populated target = .ok next ∧
      next.code.length = populated.code.length := by
  by_cases present : target.reference.span.Within onChain.length
  · have inside := inside present
    by_cases same : populated.code.slice target.reference.span =
      onChain.slice target.reference.span
    · exact ⟨_, resolveTarget_eq_ok_iff.mpr (.kept present notAtEnd inside same), rfl⟩
    · exact ⟨_, resolveTarget_eq_ok_iff.mpr (.replaced present notAtEnd inside same),
        PopulatedCode.length_fill_code_of_within present inside⟩
  · exact ⟨_, resolveTarget_of_absent present, rfl⟩

theorem Step.within_of_solidity (step : Step .solidity onChain populated target next)
    (present : target.reference.span.Within onChain.length) :
    target.reference.span.Within populated.code.length := by
  cases step with
  | missing absent => exact absurd present absent
  | appended present atEnd => exact absurd rfl (appends_eq_true_iff.mp atEnd).1
  | kept present notAtEnd inside same => exact inside
  | replaced present notAtEnd inside differs => exact inside

/-- In Solidity code there has to be room for every reference. -/
theorem exists_resolve_of_solidity_iff :
    (∃ next, resolve .solidity onChain references populated = .ok next) ↔
      ∀ target ∈ targets references, target.reference.span.Within onChain.length →
        target.reference.span.Within populated.code.length := by
  have sameTargets := perm_orderedTargets references
  constructor
  · intro succeeds target member present
    rcases succeeds with ⟨next, resolved⟩
    rcases Run.step_of_mem resolved (sameTargets.mem_iff.mpr member) with
      ⟨_, _, state, _, _, ran, stepped, _⟩
    have length : state.code.length = populated.code.length := by
      apply Run.preserves
        (fun state => state.code.length = populated.code.length) _ ran rfl
      intro state other after _ before stepped
      exact (resolveTarget_eq_ok_iff.mp stepped).length_of_solidity.trans before
    rw [← length]
    exact (resolveTarget_eq_ok_iff.mp stepped).within_of_solidity present
  · intro room
    have step : ∀ (state : PopulatedCode) (target : Target) (_ : List Target),
        target ∈ orderedTargets references → state.code.length = populated.code.length →
        ∃ after, resolveTarget .solidity onChain state target = .ok after ∧
          after.code.length = populated.code.length := by
      intro state target _ member length
      have notAtEnd : appends .solidity state.code target.reference.span = false := rfl
      have inside := room target (sameTargets.mem_iff.mp member)
      rw [← length] at inside
      rcases exists_resolveTarget_of_within notAtEnd inside with
        ⟨after, stepped, sameLength⟩
      exact ⟨after, stepped, sameLength.trans length⟩
    have start : populated.code.length = populated.code.length := rfl
    rcases Run.succeeds (fun (state : PopulatedCode) _ =>
      state.code.length = populated.code.length)
      step start with ⟨next, ran, _⟩
    exact ⟨next, ran⟩

/-! ## Room behind the code -/

/-- The references that are there on chain and end beyond the code. -/
def overhanging (onChain code : Bytes) (listed : List Target) : List Target :=
  listed.filter fun target =>
    target.reference.span.Within onChain.length ∧
      ¬ target.reference.span.Within code.length

theorem mem_overhanging_iff {code : Bytes} :
    target ∈ overhanging onChain code listed ↔
      target ∈ listed ∧ target.reference.span.Within onChain.length ∧
        ¬ target.reference.span.Within code.length := by
  rw [overhanging, List.mem_filter, decide_eq_true_eq]

/-- A reference that ends beyond the code does not begin inside it. Otherwise the code
would have to grow before it is the turn of the reference, and what it grows by at its
end is covered by another reference. -/
theorem length_le_start_of_run
    (disjoint : listed.Pairwise fun earlier later =>
      earlier.reference.span.Disjoint later.reference.span)
    (ran : listed.foldlM (resolveTarget style onChain) populated = .ok next)
    (member : target ∈ overhanging onChain populated.code listed) :
    populated.code.length ≤ target.reference.span.start := by
  rcases mem_overhanging_iff.mp member with ⟨member, present, beyond⟩
  rcases Run.step_of_mem ran member with
    ⟨earlier, later, state, after, rfl, ranEarlier, stepped, _⟩
  have overlay := isOverlay_of_run ranEarlier
  have apart := (List.pairwise_append.mp disjoint).2.2
  have ends : populated.code.length < target.reference.span.stop :=
    Nat.lt_of_not_le beyond
  have notInside : target.reference.span.Within state.code.length →
      populated.code.length ≤ target.reference.span.start := by
    intro inside
    apply Nat.le_of_not_lt
    intro begins
    have grown : populated.code.length < state.code.length :=
      Nat.lt_of_lt_of_le ends inside
    rcases overlay.isCovered_of_grown (Nat.le_refl _) grown with
      ⟨other, otherMember, _, covers⟩
    exact apart other otherMember target List.mem_cons_self _ covers
      ⟨Nat.le_of_lt begins, ends⟩
  cases resolveTarget_eq_ok_iff.mp stepped with
  | missing absent => exact absurd present absent
  | appended present atEnd =>
      rw [(appends_eq_true_iff.mp atEnd).2]
      exact overlay.length_le
  | kept present notAtEnd inside same => exact notInside inside
  | replaced present notAtEnd inside differs => exact notInside inside

/-- What the code has grown by is covered by the references that end beyond it. -/
theorem covers_iff_of_run
    (disjoint : listed.Pairwise fun earlier later =>
      earlier.reference.span.Disjoint later.reference.span)
    (ran : listed.foldlM (resolveTarget style onChain) populated = .ok next)
    (index : Nat) :
    (populated.code.length ≤ index ∧ index < next.code.length) ↔
      ∃ target ∈ overhanging onChain populated.code listed,
        target.reference.span.Covers index := by
  have overlay := isOverlay_of_run ran
  constructor
  · intro inside
    rcases overlay.isCovered_of_grown inside.1 inside.2 with
      ⟨target, member, present, covers⟩
    have beyond : ¬ target.reference.span.Within populated.code.length :=
      Nat.not_le.mpr (Nat.lt_of_le_of_lt inside.1 covers.2)
    exact ⟨target, mem_overhanging_iff.mpr ⟨member, present, beyond⟩, covers⟩
  · intro covered
    rcases covered with ⟨target, member, covers⟩
    refine ⟨Nat.le_trans (length_le_start_of_run disjoint ran member) covers.1, ?_⟩
    rcases mem_overhanging_iff.mp member with ⟨member, present, _⟩
    have onlyOnChain : IsCovered onChain listed index := ⟨target, member, present, covers⟩
    have byte := overlay.covered _ onlyOnChain
    rw [List.getElem?_eq_getElem onlyOnChain.lt_length] at byte
    exact (List.getElem?_eq_some_iff.mp byte).1

/-- The references that are still to come when the code has grown to a length: they
leave no gap up to the place where the code is to end. -/
structure AreAhead (onChain : Bytes) (original length stop : Nat)
    (rest : List Target) : Prop where
  longer : original ≤ length
  gapless : ∀ index, length ≤ index → index < stop → IsCovered onChain rest index
  places : ∀ target ∈ rest, target.reference.span.Within onChain.length →
    target.reference.span.Within original ∨
      length ≤ target.reference.span.start ∧ target.reference.span.Within stop
  ascending : rest.Pairwise fun earlier later =>
    earlier.reference.span.stop ≤ later.reference.span.start
  filled : ∀ target ∈ rest, 0 < target.reference.span.length

namespace AreAhead

variable {original length stop : Nat}

/-- The next reference is done with once the code has grown up to its end. -/
theorem tail (ahead : AreAhead onChain original length stop (target :: rest))
    {later : Nat}
    (longer : length ≤ later)
    (passed : target.reference.span.Within onChain.length →
      target.reference.span.stop ≤ later)
    (places : ∀ other ∈ rest, length ≤ other.reference.span.start →
      later ≤ other.reference.span.start) :
    AreAhead onChain original later stop rest where
  longer := Nat.le_trans ahead.longer longer
  gapless := by
    intro index above below
    have covered := ahead.gapless index (Nat.le_trans longer above) below
    apply (isCovered_cons_iff.mp covered).resolve_left
    intro here
    exact absurd here.2.2 (Nat.not_lt.mpr (Nat.le_trans (passed here.1) above))
  places := by
    intro other member present
    cases ahead.places other (List.mem_cons_of_mem _ member) present with
    | inl inside => exact .inl inside
    | inr behind => exact .inr ⟨places other member behind.1, behind.2⟩
  ascending := (List.pairwise_cons.mp ahead.ascending).2
  filled other member := ahead.filled other (List.mem_cons_of_mem _ member)

/-- The place where the code ends now is covered by the next reference, as all others
start later. -/
theorem start_eq (ahead : AreAhead onChain original length stop (target :: rest))
    (behind : length ≤ target.reference.span.start)
    (within : target.reference.span.Within stop) :
    target.reference.span.start = length := by
  have filled := ahead.filled target List.mem_cons_self
  have begins : target.reference.span.start < target.reference.span.stop :=
    Nat.lt_add_of_pos_right filled
  have covered := ahead.gapless length (Nat.le_refl _)
    (Nat.lt_of_le_of_lt behind (Nat.lt_of_lt_of_le begins within))
  cases isCovered_cons_iff.mp covered with
  | inl here => exact Nat.le_antisymm here.2.1 behind
  | inr there =>
      rcases there with ⟨other, member, _, covers⟩
      have above := (List.pairwise_cons.mp ahead.ascending).1 other member
      have starts := covers.1
      omega

theorem step (vyper : style ≠ .solidity)
    (ahead : AreAhead onChain original populated.code.length stop (target :: rest)) :
    ∃ next, resolveTarget style onChain populated target = .ok next ∧
      AreAhead onChain original next.code.length stop rest := by
  have above := (List.pairwise_cons.mp ahead.ascending).1
  by_cases present : target.reference.span.Within onChain.length
  · cases ahead.places target List.mem_cons_self present with
    | inl inside =>
        have inside : target.reference.span.Within populated.code.length :=
          Nat.le_trans inside ahead.longer
        have notAtEnd : appends style populated.code target.reference.span = false :=
          not_appends_of_within (ahead.filled target List.mem_cons_self) inside
        rcases exists_resolveTarget_of_within notAtEnd fun _ => inside with
          ⟨next, stepped, sameLength⟩
        refine ⟨next, stepped, ?_⟩
        rw [sameLength]
        exact ahead.tail (Nat.le_refl _) (fun _ => inside) fun _ _ starts => starts
    | inr behind =>
        have atEnd := ahead.start_eq behind.1 behind.2
        have appends := appends_eq_true_iff.mpr ⟨vyper, atEnd⟩
        refine ⟨_, resolveTarget_of_appends present appends, ?_⟩
        have grown : (populated.fill onChain (insertion target)).code.length =
            target.reference.span.stop := by
          rw [PopulatedCode.length_fill_code present (Nat.le_of_eq atEnd)]
          exact Nat.max_eq_right (Nat.le_trans behind.1 (Nat.le_add_right _ _))
        rw [grown]
        exact ahead.tail (Nat.le_trans behind.1 (Nat.le_add_right _ _))
          (fun _ => Nat.le_refl _)
          fun other member _ => above other member
  · refine ⟨populated, resolveTarget_of_absent present, ?_⟩
    exact ahead.tail (Nat.le_refl _) (fun here => absurd here present)
      fun _ _ starts => starts

end AreAhead

section Vyper

variable (disjoint : (targets references).Pairwise fun earlier later =>
  earlier.reference.span.Disjoint later.reference.span)

include disjoint

theorem disjoint_orderedTargets :
    (orderedTargets references).Pairwise fun earlier later =>
      earlier.reference.span.Disjoint later.reference.span :=
  disjoint.perm (perm_orderedTargets references).symm fun apart => apart.symm

theorem tiles_of_resolve
    (resolved : resolve style onChain references populated = .ok next) :
    Span.Tiles
      ((overhanging onChain populated.code (targets references)).map (·.reference.span))
      ⟨populated.code.length, next.code.length - populated.code.length⟩ := by
  have sameTargets := perm_orderedTargets references
  have longer := (isOverlay_of_resolve resolved).length_le
  constructor
  · exact List.pairwise_map.mpr (disjoint.sublist List.filter_sublist)
  · intro index
    have grown := covers_iff_of_run (disjoint_orderedTargets disjoint) resolved index
    simp only [mem_overhanging_iff, sameTargets.mem_iff] at grown
    simp only [List.mem_map, exists_exists_and_eq_and, mem_overhanging_iff]
    rw [← grown, Span.Covers, Span.stop, Nat.add_sub_cancel' longer]

theorem areAhead_of_tiles (filled : ∀ target ∈ targets references,
      0 < target.reference.span.length) {code : Bytes} {interval : Span}
    (start : interval.start = code.length)
    (tiles : Span.Tiles
      ((overhanging onChain code (targets references)).map (·.reference.span)) interval) :
    AreAhead onChain code.length code.length interval.stop
      (orderedTargets references) := by
  have sameTargets := perm_orderedTargets references
  have covers := tiles.covers
  simp only [List.mem_map, exists_exists_and_eq_and] at covers
  constructor
  case longer => exact Nat.le_refl _
  case gapless =>
    intro index above below
    rw [← start] at above
    rcases (covers index).mp ⟨above, below⟩ with ⟨target, member, covers⟩
    rcases mem_overhanging_iff.mp member with ⟨member, present, _⟩
    exact ⟨target, sameTargets.mem_iff.mpr member, present, covers⟩
  case places =>
    intro target member present
    have member := sameTargets.mem_iff.mp member
    by_cases inside : target.reference.span.Within code.length
    · exact .inl inside
    · have overhangs := mem_overhanging_iff.mpr ⟨member, present, inside⟩
      have bounds := tiles.bounds (List.mem_map_of_mem overhangs) (filled target member)
      rw [start] at bounds
      exact .inr bounds
  case ascending =>
    apply ((ascending_orderedTargets references).and
      (disjoint_orderedTargets disjoint)).imp_of_mem
    intro earlier later _ member apart
    exact apart.2.stop_le apart.1 (filled later (sameTargets.mem_iff.mp member))
  case filled =>
    intro target member
    exact filled target (sameTargets.mem_iff.mp member)

/-- Vyper code grows exactly if the references that end beyond it follow each other from
its end. -/
theorem exists_resolve_of_vyper_iff (vyper : style ≠ .solidity)
    (filled : ∀ target ∈ targets references, 0 < target.reference.span.length) :
    (∃ next, resolve style onChain references populated = .ok next) ↔
      ∃ length, Span.Tiles
        ((overhanging onChain populated.code (targets references)).map (·.reference.span))
        ⟨populated.code.length, length⟩ := by
  constructor
  · intro succeeds
    rcases succeeds with ⟨next, resolved⟩
    exact ⟨_, tiles_of_resolve disjoint resolved⟩
  · intro tiled
    rcases tiled with ⟨length, tiles⟩
    have ahead := areAhead_of_tiles disjoint filled rfl tiles
    rcases Run.succeeds
      (fun (state : PopulatedCode) rest =>
        AreAhead onChain populated.code.length state.code.length
          (populated.code.length + length) rest)
      (fun state target rest _ ahead => ahead.step vyper) ahead with ⟨next, ran, _⟩
    exact ⟨next, ran⟩

end Vyper

/-! ## The overlay -/

/-- If the resolver ends well, it has laid the bytes on chain over the code. In Solidity
code it fails exactly if a reference that is there on chain ends beyond the code. With
Vyper references that share no byte it ends well exactly if those that are there on
chain and end beyond the code fill one interval that starts where the code ends. -/
theorem resolve_lays_over (style : Auxdata.Style) (onChain : Bytes)
    (populated : PopulatedCode)
    {references : ImmutableReferences}
    (filled : ∀ target ∈ targets references, 0 < target.reference.span.length) :
    (∀ next, resolve style onChain references populated = .ok next →
      IsOverlay onChain (targets references) populated.code next.code) ∧
    (style = .solidity →
      ((∃ failure, resolve style onChain references populated = .error failure) ↔
        ∃ target ∈ targets references, target.reference.span.Within onChain.length ∧
          ¬ target.reference.span.Within populated.code.length)) ∧
    (style ≠ .solidity →
      ((targets references).Pairwise fun earlier later =>
        earlier.reference.span.Disjoint later.reference.span) →
      ((∃ next, resolve style onChain references populated = .ok next) ↔
        ∃ length, Span.Tiles
          ((overhanging onChain populated.code (targets references)).map
            (·.reference.span))
          ⟨populated.code.length, length⟩)) := by
  refine ⟨fun next resolved => isOverlay_of_resolve resolved, ?_, ?_⟩
  · intro solidity
    subst solidity
    rw [Run.exists_error_iff, exists_resolve_of_solidity_iff]
    simp
  · intro vyper disjoint
    exact exists_resolve_of_vyper_iff disjoint vyper filled

/-! One immutable inside the code, two behind it and one that is not there on chain,
listed out of order. -/

def scatteredCode : Bytes := [0x60, 0, 0x52]

def scatteredOnChain : Bytes := [0x60, 7, 0x52, 8, 9, 10]

def scatteredReferences : ImmutableReferences :=
  (Dictionary.empty.insert "0" [⟨5, 1⟩, ⟨1, 1⟩]).insert "1" [⟨3, 2⟩, ⟨100, 4⟩]

theorem scattered_lays_over :
    (∀ target ∈ targets scatteredReferences, 0 < target.reference.span.length) ∧
      (targets scatteredReferences).Pairwise (fun earlier later =>
        earlier.reference.span.Disjoint later.reference.span) ∧
      (∃ next,
        resolve .vyper scatteredOnChain scatteredReferences
          (.ofCode scatteredCode) = .ok next ∧
        IsOverlay scatteredOnChain (targets scatteredReferences)
          scatteredCode next.code) ∧
      ∃ failure,
        resolve .solidity scatteredOnChain scatteredReferences (.ofCode scatteredCode) =
        .error failure := by
  have filled : ∀ target ∈ targets scatteredReferences,
      0 < target.reference.span.length := by decide +kernel
  have disjoint : (targets scatteredReferences).Pairwise fun earlier later =>
      earlier.reference.span.Disjoint later.reference.span := by decide +kernel
  have behind : (overhanging scatteredOnChain scatteredCode
      (targets scatteredReferences)).map (·.reference.span) = [⟨5, 1⟩, ⟨3, 2⟩] := by
    decide +kernel
  have tiles : Span.Tiles [⟨5, 1⟩, ⟨3, 2⟩] ⟨3, 3⟩ := by
    refine ⟨by decide, ?_⟩
    intro index
    simp only [Span.Covers, Span.stop, List.exists_mem_cons_iff]
    simp
    omega
  have vyper := resolve_lays_over .vyper scatteredOnChain (.ofCode scatteredCode) filled
  have solidity :=
    resolve_lays_over .solidity scatteredOnChain (.ofCode scatteredCode) filled
  have succeeds := (vyper.2.2 (by decide) disjoint).mpr ⟨3, behind ▸ tiles⟩
  have fails := (solidity.2.1 rfl).mpr (by decide +kernel)
  exact ⟨filled, disjoint,
    succeeds.imp fun next resolved => ⟨resolved, vyper.1 next resolved⟩, fails⟩

end Immutable

end ContractCode
