import ContractCode.Matching
import ContractCode.Proofs.Accounting

/-! # Outcomes of a comparison

A comparison ends in one of four ways. `Outcome` lists them, and `Reports` says what a
result keeps of the code that was compared, whichever way it was found.
-/

namespace ContractCode.Matching

/-! ## Filling and comparing -/

/-- Fills the code as its type asks for. -/
def populate (style : Auxdata.Style) (codeType : CodeType) (onChain : Bytes)
    (compiled : CompiledCode)
    (artifacts : CodeArtifacts) : Except MatchError PopulatedCode :=
  match codeType with
  | .creation => populateCreation onChain compiled artifacts
  | .runtime => populateRuntime style onChain compiled artifacts

/-- What filled code is compared by. -/
def inputFor (style : Auxdata.Style) (codeType : CodeType) (onChain : Bytes)
    (compiled : CompiledCode)
    (artifacts : CodeArtifacts) (compilation : CompilationArtifacts) : Input :=
  ⟨style, codeType, onChain, compiled, artifacts.metadataChunks,
    match codeType with
    | .creation => compilation.abi
    | .runtime => none⟩

variable {style : Auxdata.Style} {codeType : CodeType} {onChain : Bytes}
  {compiled : CompiledCode}
  {artifacts : CodeArtifacts} {compilation : CompilationArtifacts}
  {populated : PopulatedCode}
  {input : Input} {result : MatchResult}

theorem matchCode_eq :
    matchCode style codeType onChain compiled artifacts compilation =
      populate style codeType onChain compiled artifacts >>=
        compare (inputFor style codeType onChain compiled artifacts compilation) := by
  cases codeType with
  | creation => rfl
  | runtime => rfl

theorem matchCode_of_populate
    (filled : populate style codeType onChain compiled artifacts = .ok populated) :
    matchCode style codeType onChain compiled artifacts compilation =
      compare (inputFor style codeType onChain compiled artifacts compilation)
        populated := by
  rw [matchCode_eq, filled]
  rfl

theorem matchCode_eq_ok_iff :
    matchCode style codeType onChain compiled artifacts compilation = .ok result ↔
      ∃ populated, populate style codeType onChain compiled artifacts = .ok populated ∧
        compare
          (inputFor style codeType onChain compiled artifacts compilation) populated =
          .ok result := by
  rw [matchCode_eq]
  exact Run.bind_eq_ok_iff

theorem populateRuntime_eq_ok_iff :
    populateRuntime style onChain compiled artifacts = .ok populated ↔
      ∃ withImmutables,
        Immutable.resolve style onChain artifacts.immutableReferences
          (CallProtection.resolve onChain (.ofCode compiled.code)) = .ok withImmutables ∧
        Library.resolve compiled.placeholders onChain artifacts.linkReferences
          withImmutables =
          .ok populated :=
  Run.bind_eq_ok_iff

/-- What holds of the compiled code and is kept by every step of every resolver holds of
filled code. -/
theorem populate_preserves (Holds : PopulatedCode → Prop)
    (unchanged : Holds (.ofCode compiled.code))
    (protection : ∀ next,
      CallProtection.Step onChain (.ofCode compiled.code) next → Holds next)
    (immutable : ∀ state target next,
      Immutable.Lists artifacts.immutableReferences target.id target.reference →
        Holds state →
      Immutable.Step style onChain state target next → Holds next)
    (library : ∀ state target next,
      Library.Lists artifacts.linkReferences target.name target.reference → Holds state →
      Library.Step compiled.placeholders onChain state target next → Holds next)
    (filled : populate style codeType onChain compiled artifacts = .ok populated) :
    Holds populated := by
  cases codeType with
  | creation => exact Library.resolve_preserves Holds library filled unchanged
  | runtime =>
      rcases populateRuntime_eq_ok_iff.mp filled with
        ⟨withImmutables, immutables, libraries⟩
      have first :=
        protection _ (CallProtection.step_resolve onChain (.ofCode compiled.code))
      have second := Immutable.resolve_preserves Holds immutable immutables first
      exact Library.resolve_preserves Holds library libraries second

theorem accountedFor_of_populate
    (filled : populate style codeType onChain compiled artifacts = .ok populated) :
    AccountedFor compiled.code artifacts populated.transformations populated.code := by
  apply populate_preserves
    (fun state => AccountedFor compiled.code artifacts state.transformations state.code)
      _ _ _ _ filled
  · exact .self compiled.code artifacts _
  · intro next step
    exact .callProtectionStep step
  · intro state target next listed before step
    exact before.immutableStep listed step
  · intro state target next listed before step
    exact before.libraryStep listed step

/-- Filling Solidity code keeps its length. -/
theorem length_of_populate
    (filled : populate .solidity codeType onChain compiled artifacts = .ok populated) :
    populated.code.length = compiled.code.length := by
  apply populate_preserves (fun state => state.code.length = compiled.code.length)
    rfl _ _ _ filled
  · intro next step
    exact step.length
  · intro state target next _ before step
    exact step.length_of_solidity.trans before
  · intro state target next _ before step
    exact step.length.trans before

/-- Creation code is filled in the same way for every style. -/
theorem length_of_populate_creation
    (filled : populate style .creation onChain compiled artifacts = .ok populated) :
    populated.code.length = compiled.code.length :=
  have asSolidity : populate .solidity .creation onChain compiled artifacts =
      .ok populated := filled
  length_of_populate asSolidity

/-! ## Agreement -/

/-- The code is all that is on chain, or for creation code the start of it. -/
def IsDeployed (codeType : CodeType) (code onChain : Bytes) : Prop :=
  match codeType with
  | .creation => code <+: onChain
  | .runtime => code = onChain

theorem agrees_eq_true_iff {code : Bytes} :
    agrees codeType code onChain = true ↔
      code ≠ [] ∧ IsDeployed codeType code onChain := by
  cases codeType with
  | creation => simp [agrees, IsDeployed]
  | runtime => simp [agrees, IsDeployed]

/-! ## Results -/

/-- The log and the values are those of the code, and beside them only of chunks and
arguments. -/
structure Reports (populated : PopulatedCode) (log : List Transformation)
    (values : RecordedValues) :
    Prop where
  log : ∃ added, log = populated.transformations ++ added ∧
    ∀ entry ∈ added, entry.reason = .cborAuxdata ∨ entry.reason = .constructorArguments
  libraries : values.libraries = populated.values.libraries
  immutables : values.immutables = populated.values.immutables
  callProtection : values.callProtection = populated.values.callProtection

namespace Reports

variable {log : List Transformation} {values : RecordedValues} {final : PopulatedCode}

theorem self (populated : PopulatedCode) :
    Reports populated populated.transformations populated.values where
  log := ⟨[], (List.append_nil _).symm, nofun⟩
  libraries := rfl
  immutables := rfl
  callProtection := rfl

theorem trans (first : Reports populated final.transformations final.values)
    (second : Reports final log values) : Reports populated log values where
  log := by
    rcases first.log with ⟨added, longer, reasons⟩
    rcases second.log with ⟨more, longest, otherReasons⟩
    refine ⟨added ++ more, ?_, ?_⟩
    · rw [longest, longer, List.append_assoc]
    · intro entry member
      rcases List.mem_append.mp member with here | there
      · exact reasons entry here
      · exact otherReasons entry there
  libraries := second.libraries.trans first.libraries
  immutables := second.immutables.trans first.immutables
  callProtection := second.callProtection.trans first.callProtection

theorem mem_log (reports : Reports populated log values) {entry : Transformation}
    (member : entry ∈ populated.transformations) : entry ∈ log := by
  rcases reports.log with ⟨added, longer, _⟩
  rw [longer]
  exact List.mem_append_left _ member

end Reports

theorem reports_recordArguments (extracted : ConstructorArguments.Extracted)
    (reasons : ∀ entry ∈ extracted.transformations,
      entry.reason = .constructorArguments) :
    Reports populated (recordArguments populated extracted).transformations
      (recordArguments populated extracted).values := by
  rw [recordArguments]
  split
  · split
    · exact ⟨⟨_, rfl, fun entry member => .inr (reasons entry member)⟩, rfl, rfl, rfl⟩
    · exact .self populated
  · exact .self populated

theorem reason_of_extract {extracted : ConstructorArguments.Extracted} {compiled : Bytes}
    {abi : Option Json}
    (found : ConstructorArguments.extract compiled onChain abi = .ok extracted) :
    ∀ entry ∈ extracted.transformations, entry.reason = .constructorArguments := by
  rw [ConstructorArguments.extract] at found
  split at found
  · cases found
    exact nofun
  · rcases Run.bind_eq_ok_iff.mp found with ⟨inputs, _, extraction⟩
    cases extraction
    intro entry member
    dsimp only at member
    split at member
    · rw [List.mem_singleton.mp member]
      rfl
    · cases member

theorem argumentsMessage_ne_stripped (extracted : ConstructorArguments.Extracted) :
    argumentsMessage extracted ≠ some strippedMetadataMessage := by
  rw [argumentsMessage]
  split
  · decide
  · exact nofun

/-- The result for code that agrees reports it, and has no message about stripped
metadata. -/
theorem reports_of_resultFor {status : MatchStatus}
    (found : resultFor input status populated = .ok result) :
    Reports populated result.transformations result.values ∧ result.status = status ∧
      result.message ≠ some strippedMetadataMessage := by
  rw [resultFor] at found
  split at found
  · cases found
    exact ⟨.self populated, rfl, nofun⟩
  · rcases Run.bind_eq_ok_iff.mp found with ⟨extracted, extraction, final⟩
    cases final
    exact ⟨reports_recordArguments extracted (reason_of_extract extraction), rfl,
      argumentsMessage_ne_stripped extracted⟩

theorem reports_recordSubstitutions (substitutions : List Substitution)
    (populated : PopulatedCode) :
    Reports populated (substitutions.foldl recordSubstitution populated).transformations
      (substitutions.foldl recordSubstitution populated).values := by
  induction substitutions generalizing populated with
  | nil => exact .self populated
  | cons substitution substitutions induction =>
      apply Reports.trans _ (induction (recordSubstitution populated substitution))
      refine ⟨⟨_, rfl, ?_⟩, rfl, rfl, rfl⟩
      intro entry member
      rw [List.mem_singleton.mp member]
      exact .inl rfl

/-- A substitution that changes something is a run, with what it applied in the log and
the values. -/
theorem substituteChunks_eq_ok_some {chunks : PlacedChunks} {final : PopulatedCode}
    (replaced : substituteChunks style onChain chunks populated = .ok (some final)) :
    ∃ last, (chunksDescending chunks).foldlM (substituteChunk style onChain)
      ⟨populated.code, []⟩ =
        .ok last ∧
      final = last.applied.foldl recordSubstitution { populated with code :=
        last.code } := by
  rw [substituteChunks] at replaced
  rcases Run.bind_eq_ok_iff.mp replaced with ⟨last, ran, applied⟩
  split at applied
  · cases applied
  · cases applied
    exact ⟨last, ran, rfl⟩

theorem substituteChunks_empty (style : Auxdata.Style) (onChain : Bytes)
    (populated : PopulatedCode) :
    substituteChunks style onChain .empty populated = .ok none := by
  have noChunks : chunksDescending .empty = [] := List.mergeSort_nil
  rw [substituteChunks, noChunks]
  rfl

/-! ## The four ways -/

inductive Outcome (input : Input) (populated : PopulatedCode) : MatchResult → Prop
  | direct {result : MatchResult}
      (same : agrees input.codeType populated.code input.onChain = true)
      (found : resultFor input (directStatus input.style input.compiled.code) populated =
        .ok result) :
      Outcome input populated result
  | substituted {final : PopulatedCode} {result : MatchResult}
      (differs : agrees input.codeType populated.code input.onChain = false)
      (replaced : substituteChunks input.style input.onChain input.chunks populated =
        .ok (some final))
      (same : agrees input.codeType final.code input.onChain = true)
      (found : resultFor input .equivalent final = .ok result) :
      Outcome input populated result
  | stripped (differs : agrees input.codeType populated.code input.onChain = false)
      (same :
        agreesWithoutMetadata input.style input.codeType populated.code input.onChain =
      true) :
      Outcome input populated
      (.ofPopulated .equivalent populated (some strippedMetadataMessage))
  | different (differs : agrees input.codeType populated.code input.onChain = false) :
      Outcome input populated (.plain .different .artifacts (some noMatchMessage))

theorem matchDirect_eq_ok_some
    (matched : matchDirect input populated = .ok (some result)) :
    agrees input.codeType populated.code input.onChain = true ∧
      resultFor input (directStatus input.style input.compiled.code) populated =
        .ok result := by
  rw [matchDirect] at matched
  split at matched
  · rename_i same
    rcases Run.bind_eq_ok_iff.mp matched with ⟨found, tried, final⟩
    cases final
    exact ⟨same, tried⟩
  · cases matched

theorem matchDirect_eq_ok_none (matched : matchDirect input populated = .ok none) :
    agrees input.codeType populated.code input.onChain = false := by
  rw [matchDirect] at matched
  split at matched
  · rcases Run.bind_eq_ok_iff.mp matched with ⟨found, _, final⟩
    cases final
  · rename_i differs
    exact Bool.eq_false_iff.mpr differs

theorem matchSubstituted_eq_ok_some
    (matched : matchSubstituted input populated = .ok (some result)) :
    ∃ final, substituteChunks input.style input.onChain input.chunks populated =
      .ok (some final) ∧
      agrees input.codeType final.code input.onChain = true ∧
      resultFor input .equivalent final = .ok result := by
  rw [matchSubstituted] at matched
  rcases Run.bind_eq_ok_iff.mp matched with ⟨substituted, replaced, matched⟩
  cases substituted with
  | none => cases matched
  | some final =>
      dsimp only at matched
      split at matched
      · rename_i same
        rcases Run.bind_eq_ok_iff.mp matched with ⟨found, tried, last⟩
        cases last
        exact ⟨final, replaced, same, tried⟩
      · cases matched

theorem outcome_of_compare (compared : compare input populated = .ok result) :
    Outcome input populated result := by
  rw [compare] at compared
  rcases Run.bind_eq_ok_iff.mp compared with ⟨_, _, compared⟩
  rcases Run.bind_eq_ok_iff.mp compared with ⟨direct, triedDirect, compared⟩
  cases direct with
  | some found =>
      cases compared
      rcases matchDirect_eq_ok_some triedDirect with ⟨same, tried⟩
      exact .direct same tried
  | none =>
      have differs := matchDirect_eq_ok_none triedDirect
      rcases Run.bind_eq_ok_iff.mp compared with ⟨substituted, triedSubstituted, compared⟩
      cases substituted with
      | some found =>
          cases compared
          rcases matchSubstituted_eq_ok_some triedSubstituted with
            ⟨final, replaced, same, tried⟩
          exact .substituted differs replaced same tried
      | none =>
          dsimp only at compared
          split at compared
          · rename_i found stripped
            cases compared
            rw [matchStripped] at stripped
            split at stripped
            · rename_i same
              cases stripped
              exact .stripped differs same
            · cases stripped
          · cases compared
            exact .different differs

theorem checkChunks_eq_ok_iff {chunks : PlacedChunks} {codeLength : Nat} :
    checkChunks chunks codeLength = .ok () ↔
      ∀ numbered ∈ numberedChunks chunks, numbered.chunk.span.Within codeLength := by
  rw [checkChunks]
  induction numberedChunks chunks with
  | nil => exact ⟨fun _ => nofun, fun _ => rfl⟩
  | cons head rest induction =>
      rw [List.forall_mem_cons, ← induction]
      apply Run.bind_eq_ok_iff.trans
      constructor
      · rintro ⟨_, checked, others⟩
        exact ⟨Span.checkedWithin_eq_ok_iff.mp checked, others⟩
      · rintro ⟨inside, others⟩
        exact ⟨(), Span.checkedWithin_eq_ok_iff.mpr inside, others⟩

theorem checkChunks_of_compare (compared : compare input populated = .ok result) :
    checkChunks input.chunks populated.code.length = .ok () := by
  rw [compare] at compared
  rcases Run.bind_eq_ok_iff.mp compared with ⟨_, checked, _⟩
  exact checked

/-- Code that agrees is not compared in other ways. -/
theorem compare_of_agrees
    (checked : checkChunks input.chunks populated.code.length = .ok ())
    (same : agrees input.codeType populated.code input.onChain = true) :
    compare input populated =
      resultFor input (directStatus input.style input.compiled.code) populated := by
  rw [compare, checked, matchDirect, if_pos same]
  cases resultFor input (directStatus input.style input.compiled.code) populated with
  | error failure => rfl
  | ok result => rfl

/-- Code that agrees with the metadata on chain in it is not compared in the last way. -/
theorem compare_of_substituted {final : PopulatedCode}
    (checked : checkChunks input.chunks populated.code.length = .ok ())
    (differs : agrees input.codeType populated.code input.onChain = false)
    (replaced : substituteChunks input.style input.onChain input.chunks populated =
      .ok (some final))
    (same : agrees input.codeType final.code input.onChain = true) :
    compare input populated = resultFor input .equivalent final := by
  have direct : matchDirect input populated = .ok none :=
    if_neg (Bool.eq_false_iff.mp differs)
  have substituted : matchSubstituted input populated =
      (resultFor input .equivalent final).map some := by
    rw [matchSubstituted, replaced]
    change (if agrees input.codeType final.code input.onChain = true then _ else _) = _
    rw [if_pos same]
    cases resultFor input .equivalent final with
    | error failure => rfl
    | ok result => rfl
  rw [compare, checked, direct]
  change (matchSubstituted input populated >>= _) = _
  rw [substituted]
  cases resultFor input .equivalent final with
  | error failure => rfl
  | ok result => rfl

/-- Codes that do not agree with the metadata on chain are compared without their
metadata. -/
theorem compare_of_not_substituted {substituted : Option PopulatedCode}
    (checked : checkChunks input.chunks populated.code.length = .ok ())
    (differs : agrees input.codeType populated.code input.onChain = false)
    (replaced : substituteChunks input.style input.onChain input.chunks populated =
      .ok substituted)
    (stillDiffers : ∀ final, substituted = some final →
      agrees input.codeType final.code input.onChain = false) :
    compare input populated =
      .ok ((matchStripped input populated).getD
        (.plain .different .artifacts (some noMatchMessage))) := by
  have direct : matchDirect input populated = .ok none :=
    if_neg (Bool.eq_false_iff.mp differs)
  have notSubstituted : matchSubstituted input populated = .ok none := by
    rw [matchSubstituted, replaced]
    cases substituted with
    | none => rfl
    | some final => exact if_neg (Bool.eq_false_iff.mp (stillDiffers final rfl))
  rw [compare, checked, direct]
  change (matchSubstituted input populated >>= _) = _
  rw [notSubstituted]
  cases matchStripped input populated with
  | none => rfl
  | some result => rfl

theorem directStatus_ne_different (style : Auxdata.Style) (compiled : Bytes) :
    directStatus style compiled ≠ .different := by
  rw [directStatus]
  split <;> nofun

/-- Codes are called different only after all comparisons, and then nothing is known of
them. -/
theorem Outcome.eq_plain (outcome : Outcome input populated result)
    (different : result.status = .different) :
    result = .plain .different .artifacts (some noMatchMessage) := by
  cases outcome with
  | direct same found =>
      rw [(reports_of_resultFor found).2.1] at different
      exact absurd different (directStatus_ne_different _ _)
  | substituted differs replaced same found =>
      rw [(reports_of_resultFor found).2.1] at different
      cases different
  | stripped differs same => cases different
  | different differs => rfl

/-- A result that tells of a match reports the code that was compared. -/
theorem Outcome.reports (outcome : Outcome input populated result)
    (isMatch : result.status ≠ .different) :
    Reports populated result.transformations result.values := by
  cases outcome with
  | direct same found => exact (reports_of_resultFor found).1
  | substituted differs replaced same found =>
      apply Reports.trans _ (reports_of_resultFor found).1
      rcases substituteChunks_eq_ok_some replaced with ⟨last, _, rfl⟩
      have kept :=
        reports_recordSubstitutions last.applied { populated with code := last.code }
      exact ⟨kept.log, kept.libraries, kept.immutables, kept.callProtection⟩
  | stripped differs same => exact .self populated
  | different differs => exact absurd rfl isMatch

end ContractCode.Matching
