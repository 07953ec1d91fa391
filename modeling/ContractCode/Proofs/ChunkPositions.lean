import ContractCode.Proofs.DeclaredRanges
import ContractCode.Proofs.Substitution
import ContractCode.Proofs.TrailingArguments

/-! # What positions of chunks are good for

Code that matches without any known chunk also matches when chunks are known. If the
codes agree as they are, the chunks are not looked at. Otherwise the codes agree without
their metadata; the substitution may now find a match first, but it does not fail, and
if it finds none that match is still found.
-/

namespace ContractCode.Matching

variable {style : Auxdata.Style} {codeType : CodeType} {onChain : Bytes}
  {compiled : CompiledCode}
  {artifacts : CodeArtifacts} {compilation : CompilationArtifacts}
  {populated : PopulatedCode}
  {input : Input} {first : MatchResult}

/-! ## The substitution does not fail

Chunks may be empty here. What happens to one chunk leaves the code at least as long as
it is up to the start of the chunk, and those that are still to come end no higher. -/

theorem start_le_length_of_substituteChunk {state next : Substituted}
    {numbered : NumberedChunk}
    (stepped : substituteChunk style onChain state numbered = .ok next) :
    numbered.chunk.span.start ≤ next.code.length := by
  rcases code_of_substituteChunk stepped with ⟨within, spliced⟩
  rw [spliced, Bytes.length_splice within]
  exact Nat.le_add_right _ _

theorem code_of_substituteChunk_empty {state next : Substituted}
    {numbered : NumberedChunk}
    (empty : numbered.chunk.span.length = 0)
    (stepped : substituteChunk style onChain state numbered = .ok next) :
    next.code = state.code := by
  rcases code_of_substituteChunk stepped with ⟨within, spliced⟩
  rw [spliced, replacement_of_length_eq_zero empty,
    Bytes.splice_nil_of_length_eq_zero empty]

/-- Disjoint chunks from the highest to the lowest, all of them parts of the code. -/
structure AreAhead (code : Bytes) (chunks : List NumberedChunk) : Prop where
  disjoint : ChunksDisjoint chunks
  descending : chunks.Pairwise fun left right =>
      right.chunk.span.start ≤ left.chunk.span.start
  within : ∀ numbered ∈ chunks, numbered.chunk.span.Within code.length

theorem AreAhead.step {state : Substituted} {numbered : NumberedChunk}
    {rest : List NumberedChunk}
    (ahead : AreAhead state.code (numbered :: rest)) :
    ∃ next, substituteChunk style onChain state numbered = .ok next ∧
      AreAhead next.code rest := by
  rcases List.pairwise_cons.mp ahead.disjoint with ⟨apart, disjoint⟩
  rcases List.pairwise_cons.mp ahead.descending with ⟨lower, descending⟩
  rcases List.forall_mem_cons.mp ahead.within with ⟨within, restWithin⟩
  rcases applied_of_substituteChunk within with ⟨next, stepped, _⟩
  refine ⟨next, stepped, disjoint, descending, ?_⟩
  intro other member
  rcases Nat.eq_zero_or_pos numbered.chunk.span.length with empty | filled
  · rw [code_of_substituteChunk_empty empty stepped]
    exact restWithin other member
  · have below := (apart other member).symm.stop_le (lower other member) filled
    exact Nat.le_trans below (start_le_length_of_substituteChunk stepped)

theorem exists_substituteChunks {chunks : PlacedChunks}
    (disjoint : ChunksDisjoint (numberedChunks chunks))
    (checked : checkChunks chunks populated.code.length = .ok ()) :
    ∃ substituted, substituteChunks style onChain chunks populated = .ok substituted := by
  have same := perm_chunksDescending chunks
  have ahead : AreAhead populated.code (chunksDescending chunks) := by
    refine ⟨disjoint.perm same.symm fun apart =>
      apart.symm, descending_chunksDescending chunks, ?_⟩
    intro numbered member
    exact checkChunks_eq_ok_iff.mp checked numbered (same.mem_iff.mp member)
  have start : AreAhead (⟨populated.code, []⟩ : Substituted).code
      (chunksDescending chunks) := ahead
  rcases Run.succeeds (fun (state : Substituted) rest => AreAhead state.code rest)
    (fun state numbered rest _ before => before.step) start with ⟨last, ran, _⟩
  rw [substituteChunks, ran]
  change ∃ substituted, (if last.applied.isEmpty then _ else _) = _
  split
  · exact ⟨none, rfl⟩
  · exact ⟨some _, rfl⟩

/-! ## With and without chunks -/

/-- Without chunks there are two ways to find a match. -/
theorem Outcome.cases_without_chunks
    (outcome : Outcome { input with chunks := .empty } populated first)
    (isMatch : first.status ≠ .different) :
    agrees input.codeType populated.code input.onChain = true ∧
        resultFor input (directStatus input.style input.compiled.code)
          populated = .ok first ∨
      agrees input.codeType populated.code input.onChain = false ∧
        first.message = some strippedMetadataMessage ∧
        matchStripped input populated = some first := by
  cases outcome with
  | direct same found => exact .inl ⟨same, found⟩
  | substituted differs replaced same found =>
      have unchanged := substituteChunks_empty input.style input.onChain populated
      cases unchanged.symm.trans replaced
  | stripped differs same => exact .inr ⟨differs, rfl, if_pos same⟩
  | different differs => exact absurd rfl isMatch

/-- Chunks that pass the check do not take a match away. -/
theorem exists_compare_of_compare_without_chunks
    (compared : compare { input with chunks := .empty } populated = .ok first)
    (isMatch : first.status ≠ .different) (readable : IsReadable input.abi)
    (disjoint : ChunksDisjoint (numberedChunks input.chunks))
    (checked : checkChunks input.chunks populated.code.length = .ok ()) :
    ∃ result, compare input populated = .ok result ∧ result.status ≠ .different ∧
      (first.message ≠ some strippedMetadataMessage → result = first) := by
  rcases (outcome_of_compare compared).cases_without_chunks isMatch with
    ⟨same, found⟩ | ⟨differs, message, stripped⟩
  · exact ⟨first, (compare_of_agrees checked same).trans found, isMatch, fun _ => rfl⟩
  · rcases exists_substituteChunks disjoint checked with ⟨substituted, replaced⟩
    by_cases agreesNow : ∃ final, substituted = some final ∧
        agrees input.codeType final.code input.onChain = true
    · rcases agreesNow with ⟨final, rfl, same⟩
      rcases exists_resultFor readable .equivalent final with ⟨result, found⟩
      refine ⟨result,
        (compare_of_substituted checked differs replaced same).trans found, ?_,
        fun unstripped => absurd message unstripped⟩
      rw [(reports_of_resultFor found).2.1]
      nofun
    · refine ⟨first, ?_, isMatch, fun _ => rfl⟩
      rw [compare_of_not_substituted checked differs replaced, stripped]
      · rfl
      · intro final isFinal
        exact Bool.eq_false_iff.mpr fun same => agreesNow ⟨final, isFinal, same⟩

/-- If codes match when no chunk is known, they match with known chunks that share no
byte, and the result is the same unless it was found without the metadata. The only
obstacle is a chunk that does not lie in the filled code, which is refused before
anything is compared. -/
theorem match_of_match_without_chunks
    (matched : matchCode style codeType onChain compiled
      { artifacts with metadataChunks := .empty } compilation = .ok first)
    (isMatch : first.status ≠ .different) (readable : IsReadable compilation.abi)
    (disjoint : ChunksDisjoint (numberedChunks artifacts.metadataChunks)) :
    ∃ populated, populate style codeType onChain compiled artifacts = .ok populated ∧
      (∀ failure, checkChunks artifacts.metadataChunks populated.code.length =
        .error failure →
        matchCode style codeType onChain compiled artifacts compilation =
          .error failure) ∧
      (checkChunks artifacts.metadataChunks populated.code.length = .ok () →
        ∃ result, matchCode style codeType onChain compiled artifacts compilation =
          .ok result ∧
          result.status ≠ .different ∧
          (first.message ≠ some strippedMetadataMessage → result = first)) := by
  rcases matchCode_eq_ok_iff.mp matched with ⟨populated, filled, compared⟩
  -- Filling the code does not look at the chunks.
  have filled : populate style codeType onChain compiled artifacts =
      .ok populated := filled
  have readableHere : IsReadable
      (inputFor style codeType onChain compiled artifacts compilation).abi := by
    cases codeType with
    | creation => exact readable
    | runtime => exact isReadable_none
  refine ⟨populated, filled, ?_, ?_⟩
  · intro failure refused
    rw [matchCode_of_populate filled, compare]
    change checkChunks artifacts.metadataChunks populated.code.length >>= _ = _
    rw [refused]
    rfl
  · intro checked
    rw [matchCode_of_populate filled]
    exact exists_compare_of_compare_without_chunks compared isMatch readableHere
      disjoint checked

/-! Code that matches without its metadata if no chunk is known. -/

def rangesWithoutChunks : CodeArtifacts :=
  { unlinkedRanges with metadataChunks := .empty }

def withoutMetadataResult : MatchResult :=
  { linkedResult with
    transformations := [.replaceImmutable 1 "3", .library 5 "a.sol:L"]
    values := { linkedResult.values with cborAuxdata := .empty }
    message := some strippedMetadataMessage }

theorem match_of_linkedCode_without_chunks :
    matchCode .solidity .runtime linkedCode unlinkedCode rangesWithoutChunks {} =
        .ok withoutMetadataResult ∧
      withoutMetadataResult.status ≠ .different ∧
      ChunksDisjoint (numberedChunks unlinkedRanges.metadataChunks) ∧
      ∃ result, matchCode .solidity .runtime linkedCode unlinkedCode unlinkedRanges {} =
        .ok result ∧
        result.status ≠ .different ∧
        (withoutMetadataResult.message ≠ some strippedMetadataMessage →
          result = withoutMetadataResult) := by
  have matched :
      matchCode .solidity .runtime linkedCode unlinkedCode rangesWithoutChunks {} =
      .ok withoutMetadataResult := by decide +kernel
  have disjoint : ChunksDisjoint (numberedChunks unlinkedRanges.metadataChunks) := by
    decide +kernel
  have isMatch : withoutMetadataResult.status ≠ .different := by decide
  rcases match_of_match_without_chunks matched isMatch isReadable_none disjoint with
    ⟨populated, filled, _, found⟩
  refine ⟨matched, isMatch, disjoint, found ?_⟩
  rw [length_of_populate filled]
  decide +kernel

end ContractCode.Matching
