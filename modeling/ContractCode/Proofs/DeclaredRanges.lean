import ContractCode.Proofs.Outcome
import ContractCode.Proofs.Replacement

/-! # Matching code differs in declared ranges only

A match that did not leave the metadata out vouches for every byte: the deployed code is
the compiled code with the logged ranges filled, and at most with the metadata chunks of
the chain in the place of its own.
-/

namespace ContractCode.Matching

variable {style : Auxdata.Style} {codeType : CodeType} {onChain : Bytes}
  {compiled : CompiledCode}
  {artifacts : CodeArtifacts} {compilation : CompilationArtifacts} {result : MatchResult}

/-- If code matches with its metadata, some filling of the compiled code that the log
accounts for is deployed, either as it is or with all metadata chunks replaced by those
on chain. -/
theorem deployed_of_match
    (disjoint : ChunksDisjoint (numberedChunks artifacts.metadataChunks))
    (matched :
      matchCode style codeType onChain compiled artifacts compilation = .ok result)
    (isMatch : result.status ≠ .different)
    (unstripped : result.message ≠ some strippedMetadataMessage) :
    ∃ filled, AccountedFor compiled.code artifacts result.transformations filled ∧
      (IsDeployed codeType filled onChain ∨
        IsDeployed codeType
          (replaceAtOnce style onChain (numberedChunks artifacts.metadataChunks) filled)
            onChain) := by
  rcases matchCode_eq_ok_iff.mp matched with ⟨populated, filled, compared⟩
  have outcome := outcome_of_compare compared
  have reports := outcome.reports isMatch
  refine ⟨populated.code, (accountedFor_of_populate filled).mono fun entry =>
    reports.mem_log, ?_⟩
  cases outcome with
  | direct same found => exact .inl (agrees_eq_true_iff.mp same).2
  | substituted differs replaced same found =>
      have deployed := (agrees_eq_true_iff.mp same).2
      rw [code_of_substituteChunks disjoint replaced] at deployed
      exact .inr deployed
  | stripped differs same => exact absurd rfl unstripped
  | different differs => exact absurd rfl isMatch

/-! Code with room for an immutable and a library, and with metadata of an older
compiler. -/

def unlinkedCode : CompiledCode :=
  .ofBytes <| 0x60 :: List.replicate 4 0 ++ List.replicate 20 0 ++
    [0xa1, 0x64, 0x73, 0x6f, 0x6c, 0x63, 0x43, 0, 8, 19, 0, 10]

def linkedCode : Bytes :=
  0x60 :: List.replicate 4 7 ++ List.replicate 20 9 ++
    [0xa1, 0x64, 0x73, 0x6f, 0x6c, 0x63, 0x43, 0, 8, 20, 0, 10]

def unlinkedRanges : CodeArtifacts where
  linkReferences :=
    Dictionary.empty.insert "a.sol" (Dictionary.empty.insert "L" [⟨5, 20⟩])
  immutableReferences := Dictionary.empty.insert "3" [⟨1, 4⟩]
  metadataChunks := Dictionary.empty.insert "1" ⟨unlinkedCode.code.drop 25, 25⟩

def linkedResult : MatchResult :=
  .ofPopulated .equivalent
    { code := linkedCode
      transformations :=
      [.replaceImmutable 1 "3", .library 5 "a.sol:L", .cborAuxdata 25 "1"]
      values := {
        cborAuxdata := Dictionary.empty.insert "1" (linkedCode.drop 25)
        libraries := Dictionary.empty.insert "a.sol:L" (List.replicate 20 9)
        immutables := Dictionary.empty.insert "3" (List.replicate 4 7) } } none

theorem deployed_of_linkedCode :
    matchCode .solidity .runtime linkedCode unlinkedCode unlinkedRanges {} =
      .ok linkedResult ∧
      ∃ filled,
        AccountedFor unlinkedCode.code unlinkedRanges
          linkedResult.transformations filled ∧
        (IsDeployed .runtime filled linkedCode ∨
          IsDeployed .runtime
            (replaceAtOnce .solidity linkedCode
              (numberedChunks unlinkedRanges.metadataChunks) filled)
            linkedCode) := by
  have matched :
      matchCode .solidity .runtime linkedCode unlinkedCode unlinkedRanges {} =
        .ok linkedResult := by
    decide +kernel
  have disjoint : ChunksDisjoint (numberedChunks unlinkedRanges.metadataChunks) := by
    decide +kernel
  exact ⟨matched, deployed_of_match disjoint matched (by decide) nofun⟩

end ContractCode.Matching
