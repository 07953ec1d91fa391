import ContractCode.Proofs.FaithfulValues
import ContractCode.Proofs.Substitution
import Mathlib.Algebra.Ring.Nat

/-! # Where constructor arguments start

The arguments are what follows the code that was compared, and they are logged where
that code ends. Filling does not change how long creation code is, nor does a chunk that
takes the place of another. A chunk that is removed makes the code shorter, so the place
that is logged then lies inside the compiled code.
-/

namespace ContractCode.Matching

variable {style : Auxdata.Style} {onChain : Bytes} {compiled : CompiledCode}
  {artifacts : CodeArtifacts} {compilation : CompilationArtifacts}
  {populated final : PopulatedCode}
  {input : Input} {result : MatchResult} {entry : Transformation}

/-! ## Removing chunks

Chunks may overlap here. A step checks that its chunk still lies in the code, so it
removes all of it. -/

/-- The bytes that a chunk loses: all of them, unless there is a chunk in its place on
chain. -/
def lostLength (style : Auxdata.Style) (onChain : Bytes)
    (numbered : NumberedChunk) : Nat :=
  if chunkOnChain? style onChain numbered.chunk.span = none then
    numbered.chunk.span.length else 0

theorem length_replacement (style : Auxdata.Style) (onChain : Bytes)
    (numbered : NumberedChunk) :
    (replacement style onChain numbered.chunk.span).length +
      lostLength style onChain numbered =
      numbered.chunk.span.length := by
  rw [replacement, lostLength]
  cases found : chunkOnChain? style onChain numbered.chunk.span with
  | none => exact Nat.zero_add _
  | some value => exact Bytes.length_of_slice? (Option.filter_eq_some_iff.mp found).1

theorem length_of_substituteChunk {state next : Substituted} {numbered : NumberedChunk}
    (stepped : substituteChunk style onChain state numbered = .ok next) :
    next.code.length + lostLength style onChain numbered = state.code.length := by
  rcases code_of_substituteChunk stepped with ⟨within, spliced⟩
  have size := length_replacement style onChain numbered
  rw [spliced, Bytes.length_splice within]
  simp only [Span.Within, Span.stop] at within ⊢
  omega

theorem length_of_run {chunks : List NumberedChunk} {initial last : Substituted}
    (ran : chunks.foldlM (substituteChunk style onChain) initial = .ok last) :
    last.code.length + (chunks.map (lostLength style onChain)).sum =
      initial.code.length := by
  induction chunks generalizing initial with
  | nil =>
      rw [Run.nil_eq_ok_iff] at ran
      rw [ran]
      rfl
  | cons head rest induction =>
      rcases Run.cons_eq_ok_iff.mp ran with ⟨next, stepped, ran⟩
      have later := induction ran
      have first := length_of_substituteChunk stepped
      rw [List.map_cons, List.sum_cons]
      omega

/-! ## Which chunks are recorded -/

/-- A run applies at most one substitution under each id. -/
theorem nodup_ids_of_run {chunks : PlacedChunks} {code : Bytes} {last : Substituted}
    (ran : (chunksDescending chunks).foldlM (substituteChunk style onChain)
      ⟨code, []⟩ = .ok last) :
    (last.applied.map (·.id)).Nodup := by
  rw [(run_in_turn (nodup_chunksDescending chunks) ran).2, List.append_nil,
    List.map_reverse, List.nodup_reverse, List.map_map]
  exact (nodup_ids_descending chunks).sublist (List.filter_sublist.map _)

/-- The chunk is recorded with nothing in its place. -/
def IsRemoved (recorded : Dictionary Bytes) (numbered : NumberedChunk) : Prop :=
  recorded.get? numbered.id = some []

instance (recorded : Dictionary Bytes) (numbered : NumberedChunk) :
    Decidable (IsRemoved recorded numbered) :=
  inferInstanceAs (Decidable (_ = _))

/-- The chunks that are recorded as removed are those without a chunk in their place on
chain. -/
theorem isRemoved_iff {chunks : PlacedChunks}
    (new : populated.values.cborAuxdata = .empty)
    (replaced : substituteChunks style onChain chunks populated = .ok (some final))
    {numbered : NumberedChunk} (member : numbered ∈ numberedChunks chunks) :
    IsRemoved final.values.cborAuxdata numbered ↔
      chunkOnChain? style onChain numbered.chunk.span = none := by
  rcases substituteChunks_eq_ok_some replaced with ⟨last, ran, rfl⟩
  have applied := (run_in_turn (nodup_chunksDescending chunks) ran).2
  have sameChunks := perm_chunksDescending chunks
  rw [IsRemoved, get?_cborAuxdata_recordSubstitutions (nodup_ids_of_run ran)
    { populated with code := last.code } new, applied, List.append_nil]
  constructor
  · rintro ⟨substitution, inLog, sameId, nothing⟩
    rcases List.mem_map.mp (List.mem_reverse.mp inLog) with ⟨other, otherChanged, rfl⟩
    have otherMember := sameChunks.mem_iff.mp (mem_changedInTurn_iff.mp otherChanged).1
    have same : other = numbered := eq_of_id_eq otherMember member sameId
    exact same ▸ replacement_eq_nil_iff.mp nothing
  · intro missing
    have changed : numbered ∈
        changedInTurn style onChain (chunksDescending chunks) populated.code :=
      mem_changedInTurn_iff.mpr ⟨sameChunks.mem_iff.mpr member, changes_of_absent missing⟩
    exact ⟨_, List.mem_reverse.mpr (List.mem_map_of_mem changed), rfl,
      replacement_eq_nil_iff.mpr missing⟩

/-- How many bytes the removed chunks have. -/
def removedLength (chunks : PlacedChunks) (recorded : Dictionary Bytes) : Nat :=
  ((numberedChunks chunks).map fun numbered =>
    if IsRemoved recorded numbered then numbered.chunk.span.length else 0).sum

theorem removedLength_eq_zero_iff {chunks : PlacedChunks} {recorded : Dictionary Bytes} :
    removedLength chunks recorded = 0 ↔
      ∀ numbered ∈ numberedChunks chunks, IsRemoved recorded numbered →
        numbered.chunk.span.length = 0 := by
  simp [removedLength, List.sum_eq_zero_iff_forall_eq_nat]

theorem removedLength_empty (chunks : PlacedChunks) :
    removedLength chunks .empty = 0 := by
  apply removedLength_eq_zero_iff.mpr
  intro numbered _ removed
  cases removed

/-- What a substitution takes from the code is what it records as removed. -/
theorem length_of_substituteChunks {chunks : PlacedChunks}
    (new : populated.values.cborAuxdata = .empty)
    (replaced : substituteChunks style onChain chunks populated = .ok (some final)) :
    final.code.length + removedLength chunks final.values.cborAuxdata =
      populated.code.length := by
  have lost : removedLength chunks final.values.cborAuxdata =
      ((chunksDescending chunks).map (lostLength style onChain)).sum := by
    rw [((perm_chunksDescending chunks).map _).sum_nat, removedLength]
    congr 1
    apply List.map_congr_left
    intro numbered member
    rw [lostLength, if_congr (isRemoved_iff new replaced member) rfl rfl]
  rcases substituteChunks_eq_ok_some replaced with ⟨last, ran, rfl⟩
  rw [lost, code_of_recordSubstitutions]
  exact length_of_run ran

/-! ## Code without arguments -/

/-- Nothing is known yet about chunks on chain and about arguments. -/
structure IsBare (populated : PopulatedCode) : Prop where
  log : ∀ entry ∈ populated.transformations, entry.reason ≠ .constructorArguments
  chunks : populated.values.cborAuxdata = .empty

namespace IsBare

theorem fill (bare : IsBare populated) (filling : Filling) :
    IsBare (populated.fill onChain filling) where
  log := by
    apply List.forall_mem_append.mpr ⟨bare.log, List.forall_mem_singleton.mpr _⟩
    rcases filling with ⟨span, cause⟩
    cases cause <;> nofun
  chunks := by
    rcases filling with ⟨span, cause⟩
    cases cause <;> exact bare.chunks

theorem fillAll (bare : IsBare populated) (fillings : List Filling) :
    IsBare (populated.fillAll onChain fillings) := by
  induction fillings generalizing populated with
  | nil => exact bare
  | cons filling fillings induction => exact induction (bare.fill filling)

theorem of_populate {codeType : CodeType}
    (filled : populate style codeType onChain compiled artifacts = .ok populated) :
    IsBare populated := by
  rcases FilledBy.of_populate filled with ⟨fillings, filledBy⟩
  have start : IsBare (.ofCode compiled.code) := ⟨nofun, rfl⟩
  exact filledBy.filled ▸ start.fillAll fillings

theorem log_of_substituteChunks {chunks : PlacedChunks} (bare : IsBare populated)
    (replaced : substituteChunks style onChain chunks populated = .ok (some final)) :
    ∀ entry ∈ final.transformations, entry.reason ≠ .constructorArguments := by
  rcases substituteChunks_eq_ok_some replaced with ⟨last, _, rfl⟩
  rw [recordSubstitutions_eq]
  apply List.forall_mem_append.mpr ⟨bare.log, _⟩
  intro entry member
  rcases List.mem_map.mp member with ⟨substitution, _, rfl⟩
  nofun

end IsBare

/-! ## Extracting arguments -/

/-- Arguments that are logged are what follows the code. -/
theorem arguments_of_extract {extracted : ConstructorArguments.Extracted} {code : Bytes}
    {abi : Option Json}
    (found : ConstructorArguments.extract code onChain abi = .ok extracted)
    (logged : entry ∈ extracted.transformations) :
    entry = .constructorArguments code.length ∧
      extracted.arguments = some (onChain.drop code.length) := by
  rw [ConstructorArguments.extract] at found
  split at found
  · cases found
    cases logged
  · rcases Run.bind_eq_ok_iff.mp found with ⟨inputs, _, extraction⟩
    cases extraction
    dsimp only at logged
    split at logged
    · exact ⟨List.mem_singleton.mp logged, rfl⟩
    · cases logged

/-- An entry is from before, or it is of arguments that are recorded with it. -/
theorem mem_recordArguments {extracted : ConstructorArguments.Extracted}
    (logged : entry ∈ (recordArguments populated extracted).transformations) :
    entry ∈ populated.transformations ∨
      entry ∈ extracted.transformations ∧
        (recordArguments populated extracted).values =
          { populated.values with constructorArguments := extracted.arguments } := by
  rw [recordArguments] at logged ⊢
  cases found : extracted.arguments with
  | none =>
      simp only [found] at logged
      exact .inl logged
  | some arguments =>
      simp only [found] at logged ⊢
      split at logged
      · rename_i validated
        rw [if_pos validated]
        exact (List.mem_append.mp logged).imp_right fun there => ⟨there, rfl⟩
      · exact .inl logged

theorem arguments_of_resultFor {status : MatchStatus}
    (creation : input.codeType = .creation)
    (found : resultFor input status populated = .ok result)
    (new : ∀ entry ∈ populated.transformations, entry.reason ≠ .constructorArguments)
    (logged : entry ∈ result.transformations)
    (reason : entry.reason = .constructorArguments) :
    entry.offset = populated.code.length ∧
      result.values.cborAuxdata = populated.values.cborAuxdata ∧
      result.values.constructorArguments =
        some (input.onChain.drop populated.code.length) := by
  rw [resultFor, creation] at found
  rcases Run.bind_eq_ok_iff.mp found with ⟨extracted, extraction, final⟩
  cases final
  change _ ∧ (recordArguments populated extracted).values.cborAuxdata = _ ∧
    (recordArguments populated extracted).values.constructorArguments = _
  rcases mem_recordArguments logged with before | ⟨inExtracted, values⟩
  · exact absurd reason (new entry before)
  · rcases arguments_of_extract extraction inExtracted with ⟨rfl, arguments⟩
    rw [values]
    exact ⟨rfl, rfl, arguments⟩

/-! ## Matches of creation code -/

/-- The code that a match logs arguments for is as much shorter than the filled code as
it has lost chunks, and the arguments follow it. -/
theorem arguments_of_outcome (outcome : Outcome input populated result)
    (creation : input.codeType = .creation) (bare : IsBare populated)
    (logged : entry ∈ result.transformations)
    (reason : entry.reason = .constructorArguments) :
    entry.offset + removedLength input.chunks result.values.cborAuxdata =
      populated.code.length ∧
      result.values.constructorArguments = some (input.onChain.drop entry.offset) := by
  cases outcome with
  | direct same found =>
      rcases arguments_of_resultFor creation found bare.log logged reason with
        ⟨offset, chunks, arguments⟩
      rw [chunks, bare.chunks, removedLength_empty, offset]
      exact ⟨rfl, arguments⟩
  | substituted differs replaced same found =>
      rcases arguments_of_resultFor creation found (bare.log_of_substituteChunks replaced)
        logged reason
        with ⟨offset, chunks, arguments⟩
      rw [chunks, offset]
      exact ⟨length_of_substituteChunks bare.chunks replaced, arguments⟩
  | stripped differs same => exact absurd reason (bare.log entry logged)
  | different differs => cases logged

/-- Constructor arguments are logged at the end of the compiled code if no chunk was
removed from it, but for empty ones. The place of arguments behind code without some
chunks is that much too low. -/
theorem offset_of_arguments
    (matched : matchCreation style onChain compiled artifacts compilation = .ok result)
    (logged : entry ∈ result.transformations)
    (reason : entry.reason = .constructorArguments) :
    entry.offset + removedLength artifacts.metadataChunks result.values.cborAuxdata =
      compiled.code.length ∧
      (entry.offset = compiled.code.length ↔
        ∀ numbered ∈ numberedChunks artifacts.metadataChunks,
          IsRemoved result.values.cborAuxdata numbered →
          numbered.chunk.span.length = 0) ∧
      result.values.constructorArguments = some (onChain.drop entry.offset) := by
  have matched : matchCode style .creation onChain compiled artifacts compilation =
      .ok result := matched
  rcases matchCode_eq_ok_iff.mp matched with ⟨populated, filled, compared⟩
  -- Creation code is filled in the same way for every style.
  have filledAsSolidity : populate .solidity .creation onChain compiled artifacts =
      .ok populated := filled
  have length := length_of_populate filledAsSolidity
  rcases arguments_of_outcome (outcome_of_compare compared) rfl
    (IsBare.of_populate filled) logged reason
    with ⟨offset, arguments⟩
  have total : entry.offset +
      removedLength artifacts.metadataChunks result.values.cborAuxdata =
      compiled.code.length := offset.trans length
  refine ⟨total, ?_, arguments⟩
  rw [← removedLength_eq_zero_iff]
  omega

/-! Code with a chunk that was deployed without it, and with an argument. -/

def versionChunk : Bytes := [0xa1, 0x64, 0x73, 0x6f, 0x6c, 0x63, 0x43, 0, 8, 14, 0, 10]

def withVersion : CompiledCode := .ofBytes ([0x60, 0x80, 0xfd] ++ versionChunk)

def versionAtEnd : CodeArtifacts where
  metadataChunks := Dictionary.empty.insert "1" ⟨versionChunk, 3⟩

def oneArgument : Bytes := List.replicate 30 0 ++ [0x30, 0x39]

def withoutVersion : Bytes := [0x60, 0x80, 0xfd] ++ oneArgument

/-- The interface of a contract whose constructor takes a number. -/
def numberConstructor : CompilationArtifacts where
  abi := some <| .array [.object [
    ("type", .text "constructor"),
    ("inputs", .array [.object [("name", .text "value"), ("type", .text "uint256")]]),
    ("stateMutability", .text "nonpayable")]]

def withoutVersionResult : MatchResult :=
  .ofPopulated .equivalent
    { code := [0x60, 0x80, 0xfd]
      transformations := [.cborAuxdata 3 "1", .constructorArguments 3]
      values :=
        { cborAuxdata := Dictionary.empty.insert "1" []
          constructorArguments := some oneArgument } } none

theorem matchCreation_withVersion :
    matchCreation .solidity withoutVersion withVersion versionAtEnd numberConstructor =
      .ok withoutVersionResult := by
  decide +kernel

theorem offset_of_oneArgument :
    matchCreation .solidity withoutVersion withVersion versionAtEnd numberConstructor =
        .ok withoutVersionResult ∧
      .constructorArguments 3 ∈ withoutVersionResult.transformations ∧
      (Transformation.constructorArguments 3).reason = .constructorArguments ∧
      3 + removedLength versionAtEnd.metadataChunks
        withoutVersionResult.values.cborAuxdata =
        withVersion.code.length ∧
      (3 = withVersion.code.length ↔
        ∀ numbered ∈ numberedChunks versionAtEnd.metadataChunks,
          IsRemoved withoutVersionResult.values.cborAuxdata numbered →
            numbered.chunk.span.length = 0) ∧
      withoutVersionResult.values.constructorArguments =
        some (withoutVersion.drop 3) := by
  have logged : .constructorArguments 3 ∈ withoutVersionResult.transformations := by
    decide +kernel
  exact ⟨matchCreation_withVersion, logged, rfl,
    offset_of_arguments matchCreation_withVersion logged rfl⟩

/-- Constructor arguments need not be logged at the end of the compiled code. -/
theorem not_offset_eq_length :
    ¬ ∀ (style : Auxdata.Style) (onChain : Bytes) (compiled : CompiledCode)
        (artifacts : CodeArtifacts) (compilation : CompilationArtifacts)
        (result : MatchResult),
      matchCreation style onChain compiled artifacts compilation = .ok result →
        ∀ entry ∈ result.transformations, entry.reason = .constructorArguments →
          entry.offset = compiled.code.length := by
  intro all
  have logged : .constructorArguments 3 ∈ withoutVersionResult.transformations := by
    decide +kernel
  have atEnd := all _ _ _ _ _ _ matchCreation_withVersion _ logged rfl
  exact absurd atEnd (by decide)

end ContractCode.Matching
