import ContractCode.Proofs.ChunkHeads
import ContractCode.Proofs.LinkedCode
import ContractCode.Proofs.MetadataDifferences

/-! # Codes of which nothing else is known

Two codes can be compared alone or as codes with empty artifacts. Compared alone they
match exactly if they have the same execution code: what comes before the metadata is
cut off in the same way whether the metadata is the same or not, so codes that are the
same agree without it as well.

Both ways try the same comparisons; only the second one fills in the address of a
library first. That can make codes match, but no codes that match alone cease to: if the
codes agree without their metadata, they agree at the place of the address, since no
metadata starts there.
-/

namespace ContractCode

/-! ## Code without its metadata -/

namespace Auxdata

/-- Code is its execution code, or its execution code and a chunk. -/
theorem executionCode_cases (style : Style) (code : Bytes) :
    executionCode style code = code ∨
      ∃ chunk, isChunk style chunk = true ∧ executionCode style code ++ chunk = code := by
  rw [executionCode]
  rcases split_cases style code with
    whole | ⟨execution, chunk, number, joined, _, isChunk, _, cut⟩
  · rw [whole]
    exact .inl rfl
  · rw [cut]
    exact .inr ⟨chunk, isChunk, joined.symm⟩

theorem executionCode_prefix (style : Style) (code : Bytes) :
    executionCode style code <+: code := by
  rcases executionCode_cases style code with whole | ⟨chunk, _, joined⟩
  · exact ⟨[], (List.append_nil _).trans whole⟩
  · exact ⟨chunk, joined⟩

/-- Metadata is cut off only if other code is left. -/
theorem executionCode_eq_nil_iff {style : Style} {code : Bytes} :
    executionCode style code = [] ↔ code = [] := by
  rw [executionCode]
  rcases split_cases style code with
    whole | ⟨execution, chunk, number, joined, nonempty, _, _, cut⟩
  · rw [whole]
    rfl
  · rw [cut, joined, List.append_eq_nil_iff]
    exact ⟨fun empty => absurd empty nonempty, And.left⟩

theorem ne_nil_of_hasContentHash {style : Style} {code : Bytes}
    (hashed : hasContentHash style code = true) : code ≠ [] := by
  rcases chunk_of_hasContentHash hashed with ⟨_, chunk, _, _, found, _⟩
  exact List.ne_nil_of_length_pos
    (Nat.lt_of_le_of_lt (Nat.zero_le _) (chunk_of_split found).2.1)

end Auxdata

/-- The place of an address that is not known yet is no part of the metadata at the end
of the code. -/
theorem CallProtection.Awaits.within_executionCode {code : Bytes} (awaits : Awaits code)
    (style : Auxdata.Style) :
    addressSpan.Within (Auxdata.executionCode style code).length := by
  rcases Auxdata.executionCode_cases style code with whole | ⟨chunk, isChunk, joined⟩
  · rw [whole]
    exact awaits.1.2
  · generalize Auxdata.executionCode style code = execution at joined ⊢
    subst joined
    have place : (execution ++ chunk).slice ⟨execution.length, chunk.length⟩ = chunk := by
      rw [Bytes.slice, List.drop_left, List.take_length]
    rw [← place] at isChunk
    exact awaits.stop_le_of_isChunk isChunk

namespace Matching

variable {style : Auxdata.Style} {onChain : Bytes} {compiled : CompiledCode}
  {populated next : PopulatedCode}

/-! ## The status -/

/-- What the comparisons that need no artifacts find for filled code. -/
def statusAlone (style : Auxdata.Style) (codeType : CodeType)
    (compiled code onChain : Bytes) :
    MatchStatus :=
  if agrees codeType code onChain then directStatus style compiled
  else if agreesWithoutMetadata style codeType code onChain then .equivalent
  else .different

theorem status_matchSimple (style : Auxdata.Style) (codeType : CodeType)
    (onChain compiled : Bytes) :
    (matchSimple style codeType onChain compiled).status =
      statusAlone style codeType compiled compiled onChain := by
  rw [matchSimple, statusAlone]
  split
  · rfl
  · split <;> rfl

/-! ## The same execution code -/

/-- Runtime code on chain has the same execution code, and creation code on chain starts
with it. -/
def HasExecutionOf (style : Auxdata.Style) (codeType : CodeType)
    (code onChain : Bytes) : Prop :=
  match codeType with
  | .creation => Auxdata.executionCode style code <+: onChain
  | .runtime => Auxdata.executionCode style code = Auxdata.executionCode style onChain

theorem agreesWithoutMetadata_eq_true_iff {codeType : CodeType} {code : Bytes} :
    agreesWithoutMetadata style codeType code onChain = true ↔
      code ≠ [] ∧ HasExecutionOf style codeType code onChain := by
  have nonempty : code ≠ [] ↔ Auxdata.executionCode style code ≠ [] :=
    Auxdata.executionCode_eq_nil_iff.symm.not
  rw [nonempty]
  cases codeType with
  | creation =>
      change agrees .creation (Auxdata.executionCode style code) onChain = true ↔ _
      exact agrees_eq_true_iff
  | runtime =>
      change agrees .runtime (Auxdata.executionCode style code)
        (Auxdata.executionCode style onChain) = true ↔ _
      exact agrees_eq_true_iff

/-- Code that is deployed as it is has its execution code deployed. -/
theorem hasExecutionOf_of_isDeployed {codeType : CodeType} {code : Bytes}
    (deployed : IsDeployed codeType code onChain) :
    HasExecutionOf style codeType code onChain := by
  cases codeType with
  | creation => exact (Auxdata.executionCode_prefix style code).trans deployed
  | runtime => exact congrArg (Auxdata.executionCode style) deployed

/-- The comparison without metadata holds wherever the direct one does. -/
theorem isMatch_matchSimple_iff {codeType : CodeType} {code : Bytes} :
    (matchSimple style codeType onChain code).status ≠ .different ↔
      code ≠ [] ∧ HasExecutionOf style codeType code onChain := by
  rw [matchSimple]
  split
  · rename_i same
    rcases agrees_eq_true_iff.mp same with ⟨nonempty, deployed⟩
    exact iff_of_true (directStatus_ne_different _ _)
      ⟨nonempty, hasExecutionOf_of_isDeployed deployed⟩
  · split
    · rename_i stripped
      exact iff_of_true nofun (agreesWithoutMetadata_eq_true_iff.mp stripped)
    · rename_i differs
      rw [agreesWithoutMetadata_eq_true_iff] at differs
      exact iff_of_false (fun isMatch => isMatch rfl) differs

theorem message_matchSimple_iff {codeType : CodeType} {code : Bytes} :
    (matchSimple style codeType onChain code).message = some strippedMetadataMessage ↔
      (matchSimple style codeType onChain code).status ≠ .different ∧
        ¬ IsDeployed codeType code onChain := by
  rw [matchSimple]
  split
  · rename_i same
    exact iff_of_false nofun fun unlike => unlike.2 (agrees_eq_true_iff.mp same).2
  · rename_i differs
    split
    · rename_i stripped
      have nonempty := (agreesWithoutMetadata_eq_true_iff.mp stripped).1
      exact iff_of_true rfl
        ⟨nofun, fun deployed => differs (agrees_eq_true_iff.mpr ⟨nonempty, deployed⟩)⟩
    · exact iff_of_false (show some noMatchMessage ≠
        some strippedMetadataMessage by decide)
        fun isMatch => isMatch.1 rfl

theorem directStatus_eq_exactMatch_iff {compiled : Bytes} :
    directStatus style compiled = .exactMatch ↔
      Auxdata.hasContentHash style compiled = true := by
  rw [directStatus]
  split
  · rename_i hashed
    exact iff_of_true rfl hashed
  · rename_i unhashed
    exact iff_of_false (by decide) unhashed

theorem exactMatch_matchSimple_iff {codeType : CodeType} {code : Bytes} :
    (matchSimple style codeType onChain code).status = .exactMatch ↔
      IsDeployed codeType code onChain ∧ Auxdata.hasContentHash style code = true := by
  rw [matchSimple]
  split
  · rename_i same
    exact directStatus_eq_exactMatch_iff.trans
      (and_iff_right (agrees_eq_true_iff.mp same).2).symm
  · rename_i differs
    have unlike : ¬ (IsDeployed codeType code onChain ∧
        Auxdata.hasContentHash style code = true) :=
      fun exact => differs
        (agrees_eq_true_iff.mpr ⟨Auxdata.ne_nil_of_hasContentHash exact.2, exact.1⟩)
    split
    · exact iff_of_false (by decide) unlike
    · exact iff_of_false (by decide) unlike

/-- Codes match alone exactly if the execution code of the one is on chain. The message
tells of metadata if the codes as they are do not match, and an exact match is code with
a content hash that is deployed as it is. So to match is an equivalence of runtime
codes, as to have the same execution code is. -/
theorem matchSimple_by_executionCode (style : Auxdata.Style) :
    (∀ codeType onChain compiled,
      ((matchSimple style codeType onChain compiled).status ≠ .different ↔
        compiled ≠ [] ∧ HasExecutionOf style codeType compiled onChain) ∧
      ((matchSimple style codeType onChain compiled).message =
        some strippedMetadataMessage ↔
        (matchSimple style codeType onChain compiled).status ≠ .different ∧
          ¬ IsDeployed codeType compiled onChain) ∧
      ((matchSimple style codeType onChain compiled).status = .exactMatch ↔
        IsDeployed codeType compiled onChain ∧
        Auxdata.hasContentHash style compiled = true)) ∧
    Equivalence fun compiled onChain : { code : Bytes // code ≠ [] } =>
      (matchSimple style .runtime onChain compiled).status ≠ .different := by
  constructor
  · intro codeType onChain compiled
    exact ⟨isMatch_matchSimple_iff, message_matchSimple_iff, exactMatch_matchSimple_iff⟩
  · simp only [isMatch_matchSimple_iff]
    constructor
    case refl =>
      intro code
      exact ⟨code.2, rfl⟩
    case symm =>
      intro compiled onChain same
      exact ⟨onChain.2, same.2.symm⟩
    case trans =>
      intro first second third same others
      exact ⟨first.2, same.2.trans others.2⟩

/-- A comparison without artifacts has a result, which keeps the log of the code if the
code matches. -/
theorem compare_without_artifacts (input : Input) (noChunks : input.chunks = .empty)
    (noAbi : input.abi = none) (populated : PopulatedCode) :
    ∃ result, compare input populated = .ok result ∧
      result.status =
        statusAlone input.style input.codeType input.compiled.code populated.code
          input.onChain ∧
      (result.status ≠ .different → ∀ entry ∈ populated.transformations,
        entry ∈ result.transformations) := by
  have checked : checkChunks input.chunks populated.code.length = .ok () := by
    rw [noChunks]
    rfl
  rw [statusAlone]
  split
  · rename_i same
    have readable : IsReadable input.abi := noAbi ▸ isReadable_none
    rcases exists_resultFor readable
      (directStatus input.style input.compiled.code) populated
      with ⟨result, found⟩
    rcases reports_of_resultFor found with ⟨reports, status, _⟩
    exact ⟨result, (compare_of_agrees checked same).trans found, status,
      fun _ entry member => reports.mem_log member⟩
  · rename_i differs
    have unsubstituted :
        substituteChunks input.style input.onChain input.chunks populated =
        .ok none := by
      rw [noChunks, substituteChunks_empty]
    rw [compare_of_not_substituted checked (Bool.eq_false_iff.mpr differs)
      unsubstituted nofun]
    by_cases stripped :
        agreesWithoutMetadata input.style input.codeType populated.code
          input.onChain = true
    · rw [matchStripped, if_pos stripped, if_pos stripped]
      exact ⟨_, rfl, rfl, fun _ entry member => member⟩
    · rw [matchStripped, if_neg stripped, if_neg stripped]
      exact ⟨_, rfl, rfl, fun isMatch => absurd rfl isMatch⟩

/-! ## Both ways -/

/-- Codes that match alone have the same bytes at the place of an address that is not
known yet. -/
theorem slice_eq_of_statusAlone {code : Bytes} (awaits : CallProtection.Awaits code)
    (isMatch : statusAlone style .runtime code code onChain ≠ .different) :
    code.slice CallProtection.addressSpan = onChain.slice CallProtection.addressSpan := by
  rw [statusAlone] at isMatch
  split at isMatch
  · rename_i same
    rw [(agrees_eq_true_iff.mp same).2]
  · split at isMatch
    · rename_i same
      have agree : agrees .runtime (Auxdata.executionCode style code)
          (Auxdata.executionCode style onChain) = true := same
      have execution : Auxdata.executionCode style code =
          Auxdata.executionCode style onChain :=
        (agrees_eq_true_iff.mp agree).2
      have inside := awaits.within_executionCode style
      rcases Auxdata.executionCode_prefix style code with ⟨rest, code⟩
      rcases Auxdata.executionCode_prefix style onChain with ⟨others, onChain⟩
      rw [← code, ← onChain, Bytes.slice_append_of_within inside, execution]
      rw [execution] at inside
      exact (Bytes.slice_append_of_within inside others).symm
    · exact absurd rfl isMatch

/-- Runtime code is filled only if it does not match alone. -/
theorem different_of_filled (style : Auxdata.Style)
    (step : CallProtection.Step onChain (.ofCode compiled.code) next) :
    next = .ofCode compiled.code ∨
      statusAlone style .runtime compiled.code compiled.code onChain = .different ∧
        .callProtection CallProtection.addressSpan.start ∈ next.transformations := by
  cases step with
  | kept same => exact .inl rfl
  | filled awaits pushes differs =>
      refine .inr ⟨?_, List.mem_cons_self⟩
      apply Decidable.byContradiction
      exact fun isMatch => differs (slice_eq_of_statusAlone awaits isMatch)

/-- Comparing codes with empty artifacts never fails. It finds what comparing them alone
finds, or the codes match only with the address of a library filled in, which is
logged. -/
theorem match_agrees_with_matchSimple (style : Auxdata.Style) (codeType : CodeType)
    (onChain : Bytes) (compiled : CompiledCode) :
    ∃ result, matchCode style codeType onChain compiled {} {} = .ok result ∧
      ((matchSimple style codeType onChain compiled.code).status ≠ .different →
        result.status = (matchSimple style codeType onChain compiled.code).status) ∧
      (result.status ≠ (matchSimple style codeType onChain compiled.code).status →
        codeType = .runtime ∧
        (matchSimple style codeType onChain compiled.code).status = .different ∧
        .callProtection CallProtection.addressSpan.start ∈ result.transformations) := by
  rw [status_matchSimple]
  cases codeType with
  | creation =>
      have filled : populate style .creation onChain compiled {} =
          .ok (.ofCode compiled.code) := rfl
      rw [matchCode_of_populate filled]
      rcases compare_without_artifacts (inputFor style .creation onChain compiled {} {})
        rfl rfl (.ofCode compiled.code) with ⟨result, compared, status, _⟩
      exact ⟨result, compared, fun _ => status, fun differs => absurd status differs⟩
  | runtime =>
      have filled : populate style .runtime onChain compiled {} =
          .ok (CallProtection.resolve onChain (.ofCode compiled.code)) := by
        apply populateRuntime_eq_ok_iff.mpr ⟨_, ?_, rfl⟩
        have noTargets : Immutable.orderedTargets .empty = [] := List.mergeSort_nil
        change (Immutable.orderedTargets .empty).foldlM _ _ = _
        rw [noTargets]
        rfl
      rw [matchCode_of_populate filled]
      rcases compare_without_artifacts (inputFor style .runtime onChain compiled {} {})
        rfl rfl (CallProtection.resolve onChain (.ofCode compiled.code))
        with ⟨result, compared, status, kept⟩
      refine ⟨result, compared, ?_⟩
      rcases different_of_filled style
        (CallProtection.step_resolve onChain (.ofCode compiled.code)) with
          same | ⟨different, logged⟩
      · rw [same] at status
        exact ⟨fun _ => status, fun differs => absurd status differs⟩
      · refine ⟨fun isMatch => absurd different isMatch, fun differs => ?_⟩
        rw [different] at differs
        exact ⟨rfl, different, kept differs _ logged⟩

end Matching

end ContractCode
