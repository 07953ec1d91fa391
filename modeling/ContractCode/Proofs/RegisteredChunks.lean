import ContractCode.Proofs.ArgumentsOffset

/-! # What stands where a chunk is registered

A substitution takes the registered chunks from the highest place to the lowest. Of the
registered value it reads only the length: whatever the code has in that range gives way
to what is on chain. So the code may lose bytes that are no metadata at all, and the
registered values say what was lost only if the code holds them.
-/

namespace ContractCode.Matching

variable {style : Auxdata.Style} {codeType : CodeType} {onChain code : Bytes}
  {compiled : CompiledCode}
  {artifacts : CodeArtifacts} {compilation : CompilationArtifacts}
  {populated final : PopulatedCode}
  {input : Input} {result : MatchResult} {entry : Transformation}
  {chunks rest : List NumberedChunk}
  {head numbered : NumberedChunk}

/-! ## Turns of registered chunks -/

/-- The chunk is not as it is on chain when it is its turn. -/
def ChangesInTurn (style : Auxdata.Style) (onChain : Bytes) (chunks : PlacedChunks)
    (code : Bytes)
    (numbered : NumberedChunk) : Prop :=
  Changes style onChain
    (codeAtTurn style onChain (chunksDescending chunks) code numbered) numbered

theorem mem_changedInTurn_chunksDescending_iff {chunks : PlacedChunks} :
    numbered ∈ changedInTurn style onChain (chunksDescending chunks) code ↔
      numbered ∈ numberedChunks chunks ∧
      ChangesInTurn style onChain chunks code numbered := by
  rw [mem_changedInTurn_iff, (perm_chunksDescending chunks).mem_iff]
  rfl

/-- Disjoint chunks are then as they were in the code from the start. -/
theorem changesInTurn_iff {chunks : PlacedChunks}
    (disjoint : ChunksDisjoint (numberedChunks chunks))
    (within : ∀ numbered ∈ numberedChunks chunks, numbered.chunk.span.Within code.length)
    (member : numbered ∈ numberedChunks chunks) :
    ChangesInTurn style onChain chunks code numbered ↔
      Changes style onChain code numbered := by
  have sameChunks := perm_chunksDescending chunks
  have slice := @slice_codeAtTurn style onChain code _ numbered
    (disjoint.perm sameChunks.symm fun apart => apart.symm)
      (descending_chunksDescending chunks)
    (fun other otherMember => within other (sameChunks.mem_iff.mp otherMember))
    (sameChunks.mem_iff.mpr member)
  rw [ChangesInTurn, Changes, Changes, slice]

/-! ## The log of a result -/

/-- The log says that the chunk was replaced or removed. -/
def IsLogged (log : List Transformation) (numbered : NumberedChunk) : Prop :=
  .cborAuxdata numbered.chunk.span.start numbered.id ∈ log

/-- What is done for arguments does not touch the chunks in the log and in the values. -/
theorem chunks_of_resultFor {status : MatchStatus}
    (found : resultFor input status populated = .ok result) :
    (∀ entry, entry.reason = .cborAuxdata →
      (entry ∈ result.transformations ↔ entry ∈ populated.transformations)) ∧
      result.values.cborAuxdata = populated.values.cborAuxdata := by
  rw [resultFor] at found
  split at found
  · cases found
    exact ⟨fun _ _ => .rfl, rfl⟩
  · rcases Run.bind_eq_ok_iff.mp found with ⟨extracted, extraction, final⟩
    cases final
    have reasons := reason_of_extract extraction
    change (∀ entry, _ →
      (entry ∈ (recordArguments populated extracted).transformations ↔ _)) ∧
      (recordArguments populated extracted).values.cborAuxdata = _
    rw [recordArguments]
    split
    · split
      · refine ⟨?_, rfl⟩
        intro entry reason
        have notAdded : entry ∉ extracted.transformations := by
          intro member
          rw [reasons entry member] at reason
          cases reason
        rw [List.mem_append, or_iff_left notAdded]
      · exact ⟨fun _ _ => .rfl, rfl⟩
    · exact ⟨fun _ _ => .rfl, rfl⟩

theorem reason_of_populate
    (filled : populate style codeType onChain compiled artifacts = .ok populated) :
    ∀ entry ∈ populated.transformations, entry.reason ≠ .cborAuxdata := by
  rcases FilledBy.of_populate filled with ⟨fillings, filledBy⟩
  intro entry member
  rw [filledBy.filled, PopulatedCode.fillAll_transformations] at member
  rcases List.mem_append.mp member with before | added
  · cases before
  · rcases List.mem_map.mp added with ⟨⟨span, cause⟩, _, rfl⟩
    cases cause <;> nofun

/-- Only a substitution logs chunks. -/
theorem substituted_of_outcome (outcome : Outcome input populated result)
    (new : ∀ entry ∈ populated.transformations, entry.reason ≠ .cborAuxdata)
    (logged : entry ∈ result.transformations) (reason : entry.reason = .cborAuxdata) :
    ∃ final, substituteChunks input.style input.onChain input.chunks populated =
      .ok (some final) ∧
      agrees input.codeType final.code input.onChain = true ∧
      resultFor input .equivalent final = .ok result := by
  cases outcome with
  | direct same found =>
      have before := ((chunks_of_resultFor found).1 entry reason).mp logged
      exact absurd reason (new entry before)
  | substituted differs replaced same found => exact ⟨_, replaced, same, found⟩
  | stripped differs same => exact absurd reason (new entry logged)
  | different differs => cases logged

/-- The log of a substitution lists the chunks that it changed, and the values say what
took their place. -/
theorem log_of_substituteChunks {chunks : PlacedChunks}
    (new : ∀ entry ∈ populated.transformations, entry.reason ≠ .cborAuxdata)
    (unrecorded : populated.values.cborAuxdata = .empty)
    (replaced : substituteChunks style onChain chunks populated = .ok (some final)) :
    final.code = replaceInTurn style onChain (chunksDescending chunks) populated.code ∧
      (∀ entry, entry.reason = .cborAuxdata → (entry ∈ final.transformations ↔
        ∃ numbered ∈ changedInTurn style onChain (chunksDescending chunks) populated.code,
          entry = .cborAuxdata numbered.chunk.span.start numbered.id)) ∧
      ∀ numbered ∈ changedInTurn style onChain (chunksDescending chunks) populated.code,
        final.values.cborAuxdata.get? numbered.id =
          some (replacement style onChain numbered.chunk.span) := by
  rcases substituteChunks_eq_ok_some replaced with ⟨last, ran, rfl⟩
  rcases run_in_turn (nodup_chunksDescending chunks) ran with ⟨code, applied⟩
  have changed : ∀ substitution, substitution ∈ last.applied ↔
      ∃ numbered ∈ changedInTurn style onChain (chunksDescending chunks) populated.code,
        substitutionOf style onChain numbered = substitution := by
    intro substitution
    rw [applied, List.append_nil, List.mem_reverse, List.mem_map]
  refine ⟨(code_of_recordSubstitutions _ _).trans code, ?_, ?_⟩
  · intro entry reason
    rw [recordSubstitutions_eq, List.mem_append, or_iff_right fun before =>
      new entry before reason, List.mem_map]
    constructor
    · rintro ⟨substitution, inRun, rfl⟩
      rcases (changed substitution).mp inRun with ⟨numbered, member, rfl⟩
      exact ⟨numbered, member, rfl⟩
    · rintro ⟨numbered, member, rfl⟩
      exact ⟨_, (changed _).mpr ⟨numbered, member, rfl⟩, rfl⟩
  · intro numbered member
    apply (get?_cborAuxdata_recordSubstitutions (nodup_ids_of_run ran)
      { populated with code := last.code } unrecorded).mpr
    exact ⟨_, (changed _).mpr ⟨numbered, member, rfl⟩, rfl, rfl⟩

/-! ## What was lost -/

/-- The code holds the registered value of the chunk in its place. -/
def HoldsChunk (code : Bytes) (numbered : NumberedChunk) : Prop :=
  code.slice numbered.chunk.span = numbered.chunk.value

instance (code : Bytes) (numbered : NumberedChunk) :
    Decidable (HoldsChunk code numbered) :=
  inferInstanceAs (Decidable (_ = _))

/-- A match that logs chunks compared the code with all registered chunks replaced. It
logs those that were not on chain as the code had them when it was their turn, for
disjoint chunks as it had them from the start. The code held the registered values of
all logged chunks exactly if no chunk that it did not hold was changed in its turn. -/
theorem logged_chunks
    (matched :
      matchCode style codeType onChain compiled artifacts compilation = .ok result)
    (substituted : ∃ entry ∈ result.transformations, entry.reason = .cborAuxdata) :
    ∃ populated, populate style codeType onChain compiled artifacts = .ok populated ∧
      IsDeployed codeType
        (replaceInTurn style onChain (chunksDescending artifacts.metadataChunks)
          populated.code)
        onChain ∧
      (∀ entry ∈ result.transformations, entry.reason = .cborAuxdata →
        ∃ numbered ∈ numberedChunks artifacts.metadataChunks,
          entry = .cborAuxdata numbered.chunk.span.start numbered.id) ∧
      (∀ numbered ∈ numberedChunks artifacts.metadataChunks,
        numbered.chunk.span.Within populated.code.length ∧
        (IsLogged result.transformations numbered ↔
          ChangesInTurn style onChain artifacts.metadataChunks populated.code numbered) ∧
        (ChunksDisjoint (numberedChunks artifacts.metadataChunks) →
          (IsLogged result.transformations numbered ↔
            Changes style onChain populated.code numbered)) ∧
        (IsLogged result.transformations numbered →
          result.values.cborAuxdata.get? numbered.id =
            some (replacement style onChain numbered.chunk.span))) ∧
      ((∀ numbered ∈ numberedChunks artifacts.metadataChunks,
          IsLogged result.transformations numbered → HoldsChunk populated.code numbered) ↔
        ∀ numbered ∈ numberedChunks artifacts.metadataChunks,
          ¬ HoldsChunk populated.code numbered →
            ¬ ChangesInTurn style onChain artifacts.metadataChunks populated.code
              numbered) := by
  rcases matchCode_eq_ok_iff.mp matched with ⟨populated, filled, compared⟩
  rcases substituted with ⟨someEntry, someLogged, someReason⟩
  have new := reason_of_populate filled
  rcases substituted_of_outcome (outcome_of_compare compared)
    new someLogged someReason with
    ⟨final, replaced, same, found⟩
  rcases log_of_substituteChunks new (IsBare.of_populate filled).chunks replaced with
    ⟨code, log, values⟩
  rcases chunks_of_resultFor found with ⟨sameLog, sameValues⟩
  have within := checkChunks_eq_ok_iff.mp (checkChunks_of_compare compared)
  have isLogged_iff : ∀ numbered ∈ numberedChunks artifacts.metadataChunks,
      (IsLogged result.transformations numbered ↔
        ChangesInTurn style onChain artifacts.metadataChunks populated.code
          numbered) := by
    intro numbered member
    rw [IsLogged, sameLog _ rfl, log _ rfl]
    constructor
    · rintro ⟨other, changed, sameEntry⟩
      rcases mem_changedInTurn_chunksDescending_iff.mp changed with ⟨otherMember, changes⟩
      have sameId : numbered.id = other.id := by
        injection sameEntry with _ _ _ ids
        exact Option.some.inj ids
      cases eq_of_id_eq member otherMember sameId
      exact changes
    · intro changes
      exact ⟨numbered, mem_changedInTurn_chunksDescending_iff.mpr ⟨member, changes⟩, rfl⟩
  refine ⟨populated, filled, code ▸ (agrees_eq_true_iff.mp same).2, ?_, ?_, ?_⟩
  · intro entry logged reason
    rcases (log entry reason).mp ((sameLog entry reason).mp logged) with
      ⟨numbered, changed, rfl⟩
    exact ⟨numbered, (mem_changedInTurn_chunksDescending_iff.mp changed).1, rfl⟩
  · intro numbered member
    refine ⟨within numbered member, isLogged_iff numbered member, ?_, ?_⟩
    · intro disjoint
      exact (isLogged_iff numbered member).trans
        (changesInTurn_iff disjoint within member)
    · intro logged
      have changes := (isLogged_iff numbered member).mp logged
      rw [sameValues]
      exact values numbered (mem_changedInTurn_chunksDescending_iff.mpr ⟨member, changes⟩)
  · apply forall₂_congr
    intro numbered member
    rw [isLogged_iff numbered member, not_imp_not]

/-! Code that can be destroyed, deployed without that part. The chunk is registered
where that part is. -/

def destructible : CompiledCode :=
  .ofBytes ((List.replicate 6 [0x33, 0xff]).flatten ++ [0x60, 0x80, 0xfd])

def versionAtStart : CodeArtifacts where
  metadataChunks := Dictionary.empty.insert "1" ⟨versionChunk, 0⟩

def indestructible : Bytes := [0x60, 0x80, 0xfd]

def indestructibleResult : MatchResult :=
  .ofPopulated .equivalent
    { code := indestructible
      transformations := [.cborAuxdata 0 "1"]
      values := { cborAuxdata := Dictionary.empty.insert "1" [] } } none

theorem matchCode_destructible :
    matchCode .solidity .runtime indestructible destructible versionAtStart {} =
      .ok indestructibleResult := by
  decide +kernel

theorem logged_chunks_destructible :
    matchCode .solidity .runtime indestructible destructible versionAtStart {} =
        .ok indestructibleResult ∧
      (∃ entry ∈ indestructibleResult.transformations, entry.reason = .cborAuxdata) ∧
      ∃ populated,
        populate .solidity .runtime indestructible destructible versionAtStart =
          .ok populated ∧
        IsDeployed .runtime (replaceInTurn .solidity indestructible
          (chunksDescending versionAtStart.metadataChunks) populated.code)
            indestructible := by
  have logged : ∃ entry ∈ indestructibleResult.transformations,
      entry.reason = .cborAuxdata :=
    ⟨.cborAuxdata 0 "1", List.mem_singleton.mpr rfl, rfl⟩
  rcases logged_chunks matchCode_destructible logged with ⟨populated, filled, deployed, _⟩
  exact ⟨matchCode_destructible, logged, populated, filled, deployed⟩

/-- A match may have lost bytes that are not the registered value of a chunk. -/
theorem not_holds_logged_chunks :
    ¬ ∀ (style : Auxdata.Style) (codeType : CodeType) (onChain : Bytes)
      (compiled : CompiledCode)
        (artifacts : CodeArtifacts) (compilation : CompilationArtifacts)
        (result : MatchResult),
      matchCode style codeType onChain compiled artifacts compilation = .ok result →
      result.status ≠ .different →
        ∃ populated, populate style codeType onChain compiled artifacts = .ok populated ∧
          ∀ numbered ∈ numberedChunks artifacts.metadataChunks,
            IsLogged result.transformations numbered →
              HoldsChunk populated.code numbered := by
  intro all
  rcases all _ _ _ _ _ _ _ matchCode_destructible nofun with ⟨populated, filled, holds⟩
  have unfilled : populate .solidity .runtime indestructible destructible versionAtStart =
      .ok (.ofCode destructible.code) := by decide +kernel
  cases filled.symm.trans unfilled
  have kept :=
    holds ⟨"1", ⟨versionChunk, 0⟩⟩ (List.mem_singleton.mpr rfl)
      (List.mem_singleton.mpr rfl)
  exact absurd kept (by decide +kernel)

end ContractCode.Matching
