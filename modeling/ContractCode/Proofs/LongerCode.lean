import ContractCode.Proofs.Coherence
import ContractCode.Proofs.TrailingArguments

/-! # Longer code on chain

Creation code that matches as it is goes on matching whatever is put behind it on chain.
All references lie in the compiled code, so the code is filled from the part on chain
that was there before, and the first comparison is won again. What was put behind it can
only be logged and recorded as arguments.
-/

namespace ContractCode

variable {placeholders : List Placeholder} {onChain : Bytes} {populated : PopulatedCode}

/-! ## Filling from longer code -/

theorem PopulatedCode.fill_append {filling : Filling}
    (present : filling.span.Within onChain.length)
    (trailing : Bytes) :
    populated.fill (onChain ++ trailing) filling = populated.fill onChain filling := by
  rw [fill, fill, Bytes.slice_append_of_within present]

namespace Library

variable {target : Target}

theorem resolveTarget_append (reaches : populated.code.length ≤ onChain.length)
    (trailing : Bytes) :
    resolveTarget placeholders (onChain ++ trailing) populated target =
      resolveTarget placeholders onChain populated target := by
  by_cases inside : target.reference.span.Within populated.code.length
  · have present : target.reference.span.Within onChain.length :=
      Nat.le_trans inside reaches
    have longer : target.reference.span.Within (onChain ++ trailing).length := by
      rw [List.length_append]
      exact Nat.le_trans present (Nat.le_add_right _ _)
    have within : (linking target).span.Within onChain.length := present
    rw [resolveTarget_of_present inside longer,
      resolveTarget_of_present inside present, decision, decision,
      Bytes.slice_append_of_within present, PopulatedCode.fill_append within]
  · simp only [resolveTarget, Span.checkedWithin, if_neg inside]
    rfl

/-- Code that is no longer than the code on chain is linked from the start of it. -/
theorem resolve_append (reaches : populated.code.length ≤ onChain.length)
    (references : LinkReferences)
    (trailing : Bytes) :
    resolve placeholders (onChain ++ trailing) references populated =
      resolve placeholders onChain references populated := by
  apply Run.congr (fun state : PopulatedCode => state.code.length ≤ onChain.length)
  · intro state target _ fits
    exact resolveTarget_append fits trailing
  · intro state target next _ fits stepped
    rw [resolveTarget_append fits] at stepped
    rw [(resolveTarget_eq_ok_iff.mp stepped).length]
    exact fits
  · exact reaches

end Library

namespace Matching

variable {style : Auxdata.Style} {compiled : CompiledCode} {artifacts : CodeArtifacts}
  {compilation : CompilationArtifacts} {input : Input} {first : MatchResult}
  {chunks : PlacedChunks}
  {final : PopulatedCode} {inputs : List Abi.Parameter}

/-! ## Direct matches -/

/-- A substitution that changes something is logged. -/
theorem exists_logged_of_substituteChunks
    (replaced : substituteChunks style onChain chunks populated = .ok (some final)) :
    ∃ entry ∈ final.transformations, entry.reason = .cborAuxdata := by
  rw [substituteChunks] at replaced
  rcases Run.bind_eq_ok_iff.mp replaced with ⟨last, _, applied⟩
  split at applied
  · cases applied
  · rename_i changed
    cases applied
    rw [recordSubstitutions_eq]
    cases entries : last.applied with
    | nil => exact absurd (List.isEmpty_iff.mpr entries) changed
    | cons substitution rest =>
        exact ⟨_, List.mem_append_right _ List.mem_cons_self, rfl⟩

/-- A match that has its metadata and no chunk in its log was found by the first
comparison. -/
theorem Outcome.agrees_of_unsubstituted (outcome : Outcome input populated first)
    (isMatch : first.status ≠ .different)
    (unstripped : first.message ≠ some strippedMetadataMessage)
    (unsubstituted : ∀ entry ∈ first.transformations, entry.reason ≠ .cborAuxdata) :
    agrees input.codeType populated.code input.onChain = true := by
  cases outcome with
  | direct same found => exact same
  | substituted differs replaced same found =>
      rcases exists_logged_of_substituteChunks replaced with ⟨entry, logged, reason⟩
      have inResult := (reports_of_resultFor found).1.mem_log logged
      exact absurd reason (unsubstituted entry inResult)
  | stripped differs same => exact absurd rfl unstripped
  | different differs => exact absurd rfl isMatch

/-! ## Arguments -/

/-- Without the arguments in it the code is as it was. -/
theorem withoutArguments_withArguments (inputs : List Abi.Parameter) (trailing : Bytes)
    (unlogged : ∀ entry ∈ populated.transformations, entry.reason ≠ .constructorArguments)
    (unrecorded : populated.values.constructorArguments = none) :
    (withArguments inputs trailing populated).transformations.filter
        (fun entry => entry.reason ≠ .constructorArguments) = populated.transformations ∧
      { (withArguments inputs trailing populated).values with
        constructorArguments := none } =
        populated.values := by
  have log : populated.transformations.filter
      (fun entry => entry.reason ≠ .constructorArguments) =
      populated.transformations := by
    apply List.filter_eq_self.mpr
    simpa using unlogged
  have values : { populated.values with constructorArguments := none } =
      populated.values := by
    rw [← unrecorded]
  rw [withArguments]
  split
  · refine ⟨?_, values⟩
    rw [List.filter_append, log]
    exact List.append_nil _
  · exact ⟨log, values⟩

/-! ## Both codes -/

/-- Filled creation code that the code on chain starts with is found, and what follows
it is recorded if it is an encoding of arguments. -/
theorem match_of_start
    (filled : populate style .creation onChain compiled artifacts = .ok populated)
    (checked : checkChunks artifacts.metadataChunks populated.code.length = .ok ())
    (same : agrees .creation populated.code onChain = true)
    (read : ConstructorArguments.inputs compilation.abi = .ok inputs) :
    matchCode style .creation onChain compiled artifacts compilation =
      .ok (.ofPopulated (directStatus style compiled.code)
        (withArguments inputs (onChain.drop populated.code.length) populated)
        (trailingMessage inputs (onChain.drop populated.code.length))) := by
  rw [matchCode_of_populate filled, compare_of_agrees checked same]
  exact resultFor_of_inputs rfl read

/-- Creation code that matches as it is, and to which no chunk had to be moved from the
chain, matches in the same way with anything behind it. Only arguments are added to the
log and the values, and what the interface of the contract says about them has no say in
the match. -/
theorem match_of_longer_creation
    (matched : matchCreation style onChain compiled artifacts {} = .ok first)
    (isMatch : first.status ≠ .different)
    (unstripped : first.message ≠ some strippedMetadataMessage)
    (unsubstituted : ∀ entry ∈ first.transformations, entry.reason ≠ .cborAuxdata)
    (readable : IsReadable compilation.abi) (trailing : Bytes) :
    ∃ result,
      matchCreation style (onChain ++ trailing) compiled artifacts compilation =
        .ok result ∧
        result.status = first.status ∧ result.libraryMap = first.libraryMap ∧
        result.transformations.filter
          (fun entry => entry.reason ≠ .constructorArguments) =
          first.transformations ∧
        { result.values with constructorArguments := none } = first.values := by
  have matched : matchCode style .creation onChain compiled artifacts {} =
      .ok first := matched
  rcases matchCode_eq_ok_iff.mp matched with ⟨populated, filled, compared⟩
  have checked := checkChunks_of_compare compared
  have same : agrees .creation populated.code onChain = true :=
    (outcome_of_compare compared).agrees_of_unsubstituted isMatch unstripped unsubstituted
  rcases agrees_eq_true_iff.mp same with ⟨nonempty, start⟩
  have start : populated.code <+: onChain := start
  -- The first result is that of the code with nothing recorded behind it.
  rw [match_of_start filled checked same rfl, withArguments_of_no_inputs] at matched
  cases matched
  have reaches : compiled.code.length ≤ onChain.length :=
    length_of_populate_creation filled ▸ start.length_le
  have filledFromLonger :
      populate style .creation (onChain ++ trailing) compiled artifacts = .ok populated :=
    (Library.resolve_append reaches _ trailing).trans filled
  have sameInLonger : agrees .creation populated.code (onChain ++ trailing) = true :=
    agrees_eq_true_iff.mpr ⟨nonempty, start.trans (List.prefix_append _ _)⟩
  rcases readable.exists_inputs with ⟨inputs, read⟩
  have bare := IsBare.of_populate filled
  have unrecorded := constructorArguments_eq_none (coherent_of_populate filled) bare.log
  rcases withoutArguments_withArguments inputs
    ((onChain ++ trailing).drop populated.code.length)
    bare.log unrecorded with ⟨log, values⟩
  refine ⟨_, match_of_start filledFromLonger checked sameInLonger read, rfl, ?_,
    log, values⟩
  change MatchResult.libraryMapOf _ = MatchResult.libraryMapOf populated.values
  rw [← values]
  rfl

/-! Code with a linked library, and the same code with an argument for its constructor. -/

def unlinkedCreation : CompiledCode :=
  .ofBytes ([0x60, 0x80] ++ List.replicate 20 0 ++ [0xfd])

def linkedCreation : Bytes := [0x60, 0x80] ++ List.replicate 20 7 ++ [0xfd]

def creationRanges : CodeArtifacts where
  linkReferences :=
    Dictionary.empty.insert "a.sol" (Dictionary.empty.insert "L" [⟨2, 20⟩])

def linkedCreationResult : MatchResult :=
  .ofPopulated .equivalent
    { code := linkedCreation
      transformations := [.library 2 "a.sol:L"]
      values :=
      { libraries := Dictionary.empty.insert "a.sol:L" (List.replicate 20 7) } } none

theorem isReadable_numberConstructor : IsReadable numberConstructor.abi := by
  rintro _ ⟨⟩
  apply Option.isSome_iff_exists.mp
  decide +kernel

theorem match_of_longer_linkedCreation :
    matchCreation .solidity linkedCreation unlinkedCreation creationRanges {} =
        .ok linkedCreationResult ∧
      linkedCreationResult.status ≠ .different ∧
      linkedCreationResult.message ≠ some strippedMetadataMessage ∧
      (∀ entry ∈ linkedCreationResult.transformations, entry.reason ≠ .cborAuxdata) ∧
      IsReadable numberConstructor.abi ∧
      ∃ result,
        matchCreation .solidity (linkedCreation ++ oneArgument)
          unlinkedCreation creationRanges
            numberConstructor = .ok result ∧
          result.status = linkedCreationResult.status ∧
          result.libraryMap = linkedCreationResult.libraryMap ∧
          result.transformations.filter
            (fun entry => entry.reason ≠ .constructorArguments) =
            linkedCreationResult.transformations ∧
          { result.values with constructorArguments := none } =
            linkedCreationResult.values := by
  have matched :
      matchCreation .solidity linkedCreation unlinkedCreation creationRanges {} =
      .ok linkedCreationResult := by decide +kernel
  have isMatch : linkedCreationResult.status ≠ .different := by decide
  have unstripped : linkedCreationResult.message ≠ some strippedMetadataMessage := nofun
  have unsubstituted : ∀ entry ∈ linkedCreationResult.transformations,
      entry.reason ≠ .cborAuxdata := by decide +kernel
  have readable := isReadable_numberConstructor
  exact ⟨matched, isMatch, unstripped, unsubstituted, readable,
    match_of_longer_creation matched isMatch unstripped unsubstituted readable
      oneArgument⟩

end Matching

end ContractCode
