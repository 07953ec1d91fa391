import ContractCode.Proofs.ChunkHeads
import ContractCode.Proofs.Substitution
import ContractCode.Proofs.TrailingArguments

/-! # Metadata that differs

Code on chain that is compiled code with other metadata is recognised by the second
comparison. The call protection leaves such code alone, since no metadata starts where
it waits for an address.
-/

namespace ContractCode

namespace Matching

variable {style : Auxdata.Style} {codeType : CodeType} {onChain deployed : Bytes}
  {compiled : CompiledCode} {artifacts : CodeArtifacts} {chunks : PlacedChunks}

/-! ## Other metadata -/

/-- The deployed code is the compiled code with other metadata. The chunks are known,
and the deployed code has a chunk in the place of each. -/
structure DiffersInMetadata (style : Auxdata.Style) (chunks : PlacedChunks)
    (compiled deployed : Bytes) :
    Prop where
  disjoint : ChunksDisjoint (numberedChunks chunks)
  within : ∀ numbered ∈ numberedChunks chunks, numbered.chunk.span.Within compiled.length
  known : ∀ numbered ∈ numberedChunks chunks,
    numbered.chunk.value = compiled.slice numbered.chunk.span
  chunk : ∀ numbered ∈ numberedChunks chunks,
    Auxdata.isChunk style numbered.chunk.value = true
  length : deployed.length = compiled.length
  same : ∀ index < compiled.length,
    (∀ numbered ∈ numberedChunks chunks, ¬ numbered.chunk.span.Covers index) →
    deployed[index]? = compiled[index]?
  deployedChunk : ∀ numbered ∈ numberedChunks chunks,
    Auxdata.isChunk style (deployed.slice numbered.chunk.span) = true
  differs : deployed ≠ compiled

namespace DiffersInMetadata

variable {code : Bytes}

theorem placed (other : DiffersInMetadata style chunks code deployed) :
    ArePlaced (numberedChunks chunks) code.length where
  disjoint := other.disjoint
  within := other.within
  filled numbered member := by
    rcases Auxdata.exists_head_of_isChunk (other.chunk numbered member) with
      ⟨head, tail, value, _⟩
    rw [PlacedChunk.span, value]
    exact Nat.succ_pos _

theorem same_outside (other : DiffersInMetadata style chunks code deployed) {index : Nat}
    (outside : ∀ numbered ∈ numberedChunks chunks, ¬ numbered.chunk.span.Covers index) :
    deployed[index]? = code[index]? := by
  rcases Nat.lt_or_ge index code.length with inside | beyond
  · exact other.same index inside outside
  · rw [List.getElem?_eq_none beyond, List.getElem?_eq_none (other.length ▸ beyond)]

/-- A chunk has no byte of an address that is not known yet. -/
theorem not_covers (other : DiffersInMetadata style chunks code deployed)
    (awaits : CallProtection.Awaits code) {numbered : NumberedChunk}
    (member : numbered ∈ numberedChunks chunks) {index : Nat}
    (covers : numbered.chunk.span.Covers index) :
    ¬ CallProtection.addressSpan.Covers index := by
  intro inAddress
  have chunk := other.chunk numbered member
  rw [other.known numbered member] at chunk
  have before := Nat.lt_of_le_of_lt covers.1 inAddress.2
  exact absurd (awaits.stop_le_of_isChunk chunk) (Nat.not_le.mpr before)

theorem callProtection (other : DiffersInMetadata style chunks code deployed) :
    CallProtection.resolve deployed (.ofCode code) = .ofCode code := by
  have step := CallProtection.step_resolve deployed (.ofCode code)
  generalize CallProtection.resolve deployed (.ofCode code) = next at step
  cases step with
  | kept same => rfl
  | filled awaits pushes differs =>
      -- No chunk reaches into the address, so the deployed code has the same zero bytes
      -- there.
      apply absurd _ differs
      apply Bytes.slice_congr
      intro index inAddress
      apply Eq.symm (other.same_outside _)
      intro numbered member covers
      exact other.not_covers awaits member covers inAddress

/-- What the substitution finds on chain is the chunk of the deployed code. -/
theorem chunkOnChain? (other : DiffersInMetadata style chunks code deployed)
    (starts : deployed <+: onChain) {numbered : NumberedChunk}
    (member : numbered ∈ numberedChunks chunks) :
    Matching.chunkOnChain? style onChain numbered.chunk.span =
      some (deployed.slice numbered.chunk.span) := by
  rcases starts with ⟨trailing, rfl⟩
  have within : numbered.chunk.span.Within deployed.length :=
    other.length ▸ other.within numbered member
  apply Option.filter_eq_some_iff.mpr ⟨?_, other.deployedChunk numbered member⟩
  apply Bytes.slice?_eq_some_iff.mpr
    ⟨?_, (Bytes.slice_append_of_within within trailing).symm⟩
  rw [List.length_append]
  exact Nat.le_trans within (Nat.le_add_right _ _)

theorem replacement (other : DiffersInMetadata style chunks code deployed)
    (starts : deployed <+: onChain) {numbered : NumberedChunk}
    (member : numbered ∈ numberedChunks chunks) :
    Matching.replacement style onChain numbered.chunk.span =
      deployed.slice numbered.chunk.span := by
  rw [Matching.replacement, other.chunkOnChain? starts member, Option.getD_some]

theorem changes_iff (other : DiffersInMetadata style chunks code deployed)
    (starts : deployed <+: onChain) {numbered : NumberedChunk}
    (member : numbered ∈ numberedChunks chunks) :
    Changes style onChain code numbered ↔
      deployed.slice numbered.chunk.span ≠ code.slice numbered.chunk.span := by
  rw [Changes, other.chunkOnChain? starts member, ne_eq, ne_eq, Option.some.injEq]

theorem mem_changedChunks_iff (other : DiffersInMetadata style chunks code deployed)
    (starts : deployed <+: onChain) {numbered : NumberedChunk} :
    numbered ∈ changedChunks style onChain code (chunksAscending chunks) ↔
      numbered ∈ numberedChunks chunks ∧
        deployed.slice numbered.chunk.span ≠ code.slice numbered.chunk.span := by
  rw [mem_changedChunks_ascending_iff]
  exact and_congr_right fun member => other.changes_iff starts member

/-- Some chunk changes, since the codes are the same outside of the chunks. -/
theorem changedChunks_ne_nil (other : DiffersInMetadata style chunks code deployed)
    (starts : deployed <+: onChain) :
    changedChunks style onChain code (chunksAscending chunks) ≠ [] := by
  intro unchanged
  apply other.differs
  apply List.ext_getElem?
  intro index
  by_cases inside : ∃ numbered ∈ numberedChunks chunks, numbered.chunk.span.Covers index
  · rcases inside with ⟨numbered, member, covers⟩
    apply Bytes.getElem?_eq_of_slice _ covers
    apply Decidable.byContradiction
    intro changes
    have changed := (other.mem_changedChunks_iff starts).mpr ⟨member, changes⟩
    rw [unchanged] at changed
    cases changed
  · exact other.same_outside fun numbered member covers =>
      inside ⟨numbered, member, covers⟩

theorem replaceAtOnce (other : DiffersInMetadata style chunks code deployed)
    (starts : deployed <+: onChain) :
    Matching.replaceAtOnce style onChain (numberedChunks chunks) code = deployed := by
  have sameChunks := perm_chunksDescending chunks
  rw [← replaceAtOnce_perm (other.placed.perm sameChunks.symm).disjoint sameChunks]
  apply replaceAtOnce_eq (other.placed.perm sameChunks.symm)
    (descending_chunksDescending chunks)
    other.length.symm
  · intro numbered member
    exact other.replacement starts (sameChunks.mem_iff.mp member)
  · intro index outside
    apply Eq.symm (other.same_outside _)
    exact fun numbered member => outside numbered (sameChunks.mem_iff.mpr member)

/-- The compiled code is not what is on chain. -/
theorem agrees_eq_false (other : DiffersInMetadata style chunks code deployed)
    (isDeployed : IsDeployed codeType deployed onChain) :
    agrees codeType code onChain = false := by
  rw [← Bool.not_eq_true]
  intro same
  have compiledStarts := (agrees_eq_true_iff.mp same).2
  cases codeType with
  | creation =>
      have starts := List.prefix_of_prefix_length_le compiledStarts isDeployed
        (Nat.le_of_eq other.length.symm)
      exact other.differs (starts.eq_of_length other.length.symm).symm
  | runtime => exact other.differs (Eq.trans isDeployed compiledStarts.symm)

end DiffersInMetadata

/-! ## The match -/

theorem IsDeployed.starts {code : Bytes} (isDeployed : IsDeployed codeType code onChain) :
    code <+: onChain := by
  cases codeType with
  | creation => exact isDeployed
  | runtime => exact isDeployed ▸ List.prefix_rfl

theorem populate_of_differsInMetadata
    (other : DiffersInMetadata style chunks compiled.code deployed)
    (isDeployed : IsDeployed codeType deployed onChain)
    (noLibraries : Library.targets artifacts.linkReferences = [])
    (noImmutables : Immutable.targets artifacts.immutableReferences = []) :
    populate style codeType onChain compiled artifacts = .ok (.ofCode compiled.code) := by
  have linked : ∀ populated,
      Library.resolve compiled.placeholders onChain artifacts.linkReferences populated =
        .ok populated := by
    intro populated
    rw [Library.resolve, noLibraries]
    rfl
  cases codeType with
  | creation => exact linked _
  | runtime =>
      cases isDeployed
      apply populateRuntime_eq_ok_iff.mpr ⟨_, ?_, linked _⟩
      rw [other.callProtection, Immutable.resolve, Immutable.orderedTargets, noImmutables,
        List.mergeSort_nil]
      rfl

theorem matchCode_of_differsInMetadata (compilation : CompilationArtifacts)
    (other : DiffersInMetadata style artifacts.metadataChunks compiled.code deployed)
    (isDeployed : IsDeployed codeType deployed onChain)
    (noLibraries : Library.targets artifacts.linkReferences = [])
    (noImmutables : Immutable.targets artifacts.immutableReferences = []) :
    matchCode style codeType onChain compiled artifacts compilation =
      resultFor
        (inputFor style codeType onChain compiled artifacts compilation) .equivalent
        (substitutedCode style onChain artifacts.metadataChunks
          (.ofCode compiled.code)) := by
  have starts := isDeployed.starts
  have nonempty : deployed ≠ [] := by
    rintro rfl
    exact other.differs (List.eq_nil_of_length_eq_zero other.length.symm).symm
  have code :
      (substitutedCode style onChain artifacts.metadataChunks
        (.ofCode compiled.code)).code =
      deployed := other.replaceAtOnce starts
  rw [matchCode_of_populate
    (populate_of_differsInMetadata other isDeployed noLibraries noImmutables)]
  apply compare_of_substituted
  · exact checkChunks_eq_ok_iff.mpr other.within
  · exact other.agrees_eq_false isDeployed
  · exact (substituteChunks_eq other.placed).trans
      (congrArg Except.ok (if_neg (other.changedChunks_ne_nil starts)))
  · rw [code]
    exact agrees_eq_true_iff.mpr ⟨nonempty, isDeployed⟩

/-- What is substituted does not depend on what follows the deployed code. -/
theorem substitutedCode_of_starts {code : Bytes}
    (other : DiffersInMetadata style chunks code deployed)
    (starts : deployed <+: onChain) :
    substitutedCode style onChain chunks (.ofCode code) =
      { code := deployed
        transformations :=
        (changedChunks style deployed code (chunksAscending chunks)).map
          fun numbered => .cborAuxdata numbered.chunk.span.start numbered.id
        values := { cborAuxdata :=
          (substitutedCode style deployed chunks (.ofCode code)).values.cborAuxdata }
            } := by
  have changed : changedChunks style onChain code (chunksAscending chunks) =
      changedChunks style deployed code (chunksAscending chunks) := by
    apply List.filter_congr
    intro numbered member
    have member := (perm_chunksAscending chunks).mem_iff.mp member
    rw [decide_eq_decide, other.changes_iff starts member,
      other.changes_iff List.prefix_rfl member]
  have values : (changedChunks style deployed code (chunksAscending chunks)).map
        (fun numbered => (numbered.id, replacement style onChain numbered.chunk.span)) =
      (changedChunks style deployed code (chunksAscending chunks)).map
        fun numbered =>
          (numbered.id, replacement style deployed numbered.chunk.span) := by
    apply List.map_congr_left
    intro numbered member
    have member := ((other.mem_changedChunks_iff List.prefix_rfl).mp member).1
    rw [other.replacement starts member, other.replacement List.prefix_rfl member]
  simp only [substitutedCode, PopulatedCode.ofCode, changed, values,
    other.replaceAtOnce starts, List.nil_append]

/-- Metadata that differs is no obstacle: the code matches, and the log and the values
have the chunks that differ. Constructor arguments behind creation code change nothing
of that. -/
theorem match_of_differsInMetadata
    (other : DiffersInMetadata style artifacts.metadataChunks compiled.code deployed)
    (noLibraries : Library.targets artifacts.linkReferences = [])
    (noImmutables : Immutable.targets artifacts.immutableReferences = []) :
    ∃ (changed : List NumberedChunk) (values : Dictionary Bytes)
      (populated : PopulatedCode),
      changed.Pairwise (fun earlier later => earlier.chunk.offset < later.chunk.offset) ∧
      (∀ numbered, numbered ∈ changed ↔
        numbered ∈ numberedChunks artifacts.metadataChunks ∧
        deployed.slice numbered.chunk.span ≠ compiled.code.slice numbered.chunk.span) ∧
      (∀ id value, values.get? id = some value ↔
        ∃ numbered ∈ changed, numbered.id = id ∧
          deployed.slice numbered.chunk.span = value) ∧
      populated = ⟨deployed,
        changed.map fun numbered => .cborAuxdata numbered.chunk.span.start numbered.id,
        { cborAuxdata := values }⟩ ∧
      matchRuntime style deployed compiled artifacts =
        .ok (.ofPopulated .equivalent populated none) ∧
      ∀ trailing, matchCreation style (deployed ++ trailing) compiled artifacts {} =
        .ok (.ofPopulated .equivalent populated (trailingMessage [] trailing)) := by
  have runtime : IsDeployed .runtime deployed deployed := rfl
  refine ⟨changedChunks style deployed compiled.code
    (chunksAscending artifacts.metadataChunks),
    (substitutedCode style deployed artifacts.metadataChunks
      (.ofCode compiled.code)).values.cborAuxdata, _, ?_, ?_, ?_, rfl, ?_, ?_⟩
  · exact ascending_changedChunks other.placed compiled.code
  · exact fun numbered => other.mem_changedChunks_iff List.prefix_rfl
  · intro id value
    rw [get?_cborAuxdata_substitutedCode rfl]
    apply exists_congr
    intro numbered
    apply and_congr_right
    intro changed
    rw [other.replacement List.prefix_rfl
      ((other.mem_changedChunks_iff List.prefix_rfl).mp changed).1]
  · apply (matchCode_of_differsInMetadata {} other runtime noLibraries noImmutables).trans
    rw [substitutedCode_of_starts other List.prefix_rfl]
    rfl
  · intro trailing
    have creation : IsDeployed .creation deployed (deployed ++ trailing) :=
      List.prefix_append _ _
    apply (matchCode_of_differsInMetadata {}
      other creation noLibraries noImmutables).trans
    rw [resultFor_of_no_abi rfl rfl, substitutedCode_of_starts other creation]
    change Except.ok (MatchResult.ofPopulated _ _
      (trailingMessage [] ((deployed ++ trailing).drop deployed.length))) = _
    rw [List.drop_left]

/-! Code with the versions of two compilers, of which the second is another one on
chain. -/

def versionMap (patch : UInt8) : Bytes :=
  [0xA1, 0x65, 0x76, 0x79, 0x70, 0x65, 0x72, 0x83, 0, 3, patch]

def twoVersions (first second : UInt8) : Bytes :=
  0xFE :: versionMap first ++ 0xFD :: versionMap second

def versionChunks : PlacedChunks :=
  (Dictionary.empty.insert "1" ⟨versionMap 4, 1⟩).insert "2" ⟨versionMap 4, 13⟩

def codeWithVersions : CompiledCode := .ofBytes (twoVersions 4 4)

def knownVersions : CodeArtifacts where
  metadataChunks := versionChunks

theorem differsInMetadata_twoVersions :
    DiffersInMetadata .vyperBefore035 knownVersions.metadataChunks codeWithVersions.code
      (twoVersions 4 3) where
  disjoint := by decide +kernel
  within := by decide +kernel
  known := by decide +kernel
  chunk := by decide +kernel
  length := rfl
  same := by decide +kernel
  deployedChunk := by decide +kernel
  differs := by decide +kernel

theorem match_of_twoVersions :
    DiffersInMetadata .vyperBefore035 knownVersions.metadataChunks codeWithVersions.code
        (twoVersions 4 3) ∧
      Library.targets knownVersions.linkReferences = [] ∧
      Immutable.targets knownVersions.immutableReferences = [] ∧
      ∃ (changed : List NumberedChunk) (values : Dictionary Bytes)
        (populated : PopulatedCode),
        changed.Pairwise
          (fun earlier later => earlier.chunk.offset < later.chunk.offset) ∧
        (∀ numbered, numbered ∈ changed ↔
          numbered ∈ numberedChunks knownVersions.metadataChunks ∧
          (twoVersions 4 3).slice numbered.chunk.span ≠
            codeWithVersions.code.slice numbered.chunk.span) ∧
        (∀ id value, values.get? id = some value ↔
          ∃ numbered ∈ changed, numbered.id = id ∧
            (twoVersions 4 3).slice numbered.chunk.span = value) ∧
        populated = ⟨twoVersions 4 3,
          changed.map fun numbered => .cborAuxdata numbered.chunk.span.start numbered.id,
          { cborAuxdata := values }⟩ ∧
        matchRuntime .vyperBefore035 (twoVersions 4 3) codeWithVersions knownVersions =
          .ok (.ofPopulated .equivalent populated none) ∧
        ∀ trailing,
          matchCreation .vyperBefore035 (twoVersions 4 3 ++ trailing) codeWithVersions
            knownVersions {} =
          .ok (.ofPopulated .equivalent populated (trailingMessage [] trailing)) :=
  ⟨differsInMetadata_twoVersions, rfl, rfl,
    match_of_differsInMetadata differsInMetadata_twoVersions rfl rfl⟩

end Matching

end ContractCode
