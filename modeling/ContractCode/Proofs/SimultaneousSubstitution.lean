import ContractCode.Proofs.MetadataDifferences

/-! # Substitution as one replacement

The loop of a substitution shortens the code while it still has chunks to take, and the
places of these are those that they have in the code from the start. Chunks that share
no byte are not disturbed by that: the loop ends well, and the code is the one in which
all of them are replaced at once. What it logs and records is what was changed, in the
order of the places.
-/

namespace ContractCode.Matching

variable {style : Auxdata.Style} {onChain : Bytes} {chunks : PlacedChunks}
  {populated : PopulatedCode}

/-- Behind the log of the one code, the log of the other one has an entry for each chunk
of a list. Each has what takes its place as its value, under its id, and no other value
is touched. -/
structure Records (style : Auxdata.Style) (onChain : Bytes) (changed : List NumberedChunk)
    (populated final : PopulatedCode) : Prop where
  logged : final.transformations = populated.transformations ++
    changed.map fun numbered => .cborAuxdata numbered.chunk.span.start numbered.id
  recorded : ∀ numbered ∈ changed, final.values.cborAuxdata.get? numbered.id =
    some (replacement style onChain numbered.chunk.span)
  kept : ∀ id, (∀ numbered ∈ changed, numbered.id ≠ id) →
    final.values.cborAuxdata.get? id = populated.values.cborAuxdata.get? id
  others : final.values =
    { populated.values with cborAuxdata := final.values.cborAuxdata }

theorem records_substitutedCode :
    Records style onChain
      (changedChunks style onChain populated.code (chunksAscending chunks)) populated
      (substitutedCode style onChain chunks populated) := by
  constructor
  · rfl
  · intro numbered member
    exact get?_cborAuxdata_substitutedCode_iff.mpr (.inl ⟨numbered, member, rfl, rfl⟩)
  · intro id new
    apply Option.ext
    intro value
    rw [get?_cborAuxdata_substitutedCode_iff]
    constructor
    · intro found
      apply And.right
      apply found.resolve_left
      intro changed
      rcases changed with ⟨numbered, member, same, _⟩
      exact new numbered member same
    · intro found
      exact .inr ⟨new, found⟩
  · rfl

/-- Disjoint chunks that pass the check are substituted without a failure. The code is
then the one in which every chunk is replaced at once by the chunk on chain, or removed
if there is none. If every chunk is already the one on chain, there is no other code to
go on with. Otherwise that code is returned with an entry in its log and a value for
each chunk that is not, from the lowest place to the highest. -/
theorem substitution_replaces_at_once
    (disjoint : ChunksDisjoint (numberedChunks chunks))
    (filled : ∀ numbered ∈ numberedChunks chunks, 0 < numbered.chunk.span.length)
    (checked : checkChunks chunks populated.code.length = .ok ()) :
    ∃ last substituted,
      (chunksDescending chunks).foldlM (substituteChunk style onChain)
        ⟨populated.code, []⟩ = .ok last ∧
      last.code = replaceAtOnce style onChain (numberedChunks chunks) populated.code ∧
      substituteChunks style onChain chunks populated = .ok substituted ∧
      (substituted = none ↔ ∀ numbered ∈ numberedChunks chunks,
        chunkOnChain? style onChain numbered.chunk.span =
          some (populated.code.slice numbered.chunk.span)) ∧
      ∀ final, substituted = some final →
        final.code = last.code ∧
        ∃ changed : List NumberedChunk,
          (∀ numbered, numbered ∈ changed ↔ numbered ∈ numberedChunks chunks ∧
            chunkOnChain? style onChain numbered.chunk.span ≠
              some (populated.code.slice numbered.chunk.span)) ∧
          changed.Pairwise
            (fun earlier later => earlier.chunk.offset < later.chunk.offset) ∧
          Records style onChain changed populated final := by
  have placed : ArePlaced (numberedChunks chunks) populated.code.length :=
    ⟨disjoint, filled, checkChunks_eq_ok_iff.mp checked⟩
  have run : ∃ last, (chunksDescending chunks).foldlM (substituteChunk style onChain)
      ⟨populated.code, []⟩ = .ok last ∧ _ := exists_run_of_placed placed
  rcases run with ⟨last, ran, code, _⟩
  refine ⟨last, _, ran, code, substituteChunks_eq placed, ?_, ?_⟩
  · rw [ite_eq_left_iff, List.eq_nil_iff_forall_not_mem]
    simp [mem_changedChunks_ascending_iff, Changes]
  · intro final returned
    split at returned
    · cases returned
    · cases returned
      exact ⟨code.symm, _, fun numbered => mem_changedChunks_ascending_iff,
        ascending_changedChunks placed populated.code, records_substitutedCode⟩

/-! Three versions in code with ids out of order. On chain the first is another one, the
second is no metadata and the third is the same. -/

def threeVersions : Bytes := twoVersions 4 4 ++ 0xFC :: versionMap 4

def threeVersionsOnChain : Bytes :=
  0xFE :: versionMap 3 ++ 0xFD :: List.replicate 11 0 ++ 0xFC :: versionMap 4

def threeChunks : PlacedChunks :=
  ((Dictionary.empty.insert "3" ⟨versionMap 4, 1⟩).insert "1"
    ⟨versionMap 4, 13⟩).insert "2" ⟨versionMap 4, 25⟩

theorem threeVersions_replaced_at_once :
    ChunksDisjoint (numberedChunks threeChunks) ∧
      (∀ numbered ∈ numberedChunks threeChunks, 0 < numbered.chunk.span.length) ∧
      checkChunks threeChunks (PopulatedCode.ofCode threeVersions).code.length = .ok () ∧
      ∃ final, substituteChunks .vyperBefore035 threeVersionsOnChain threeChunks
          (.ofCode threeVersions) = .ok (some final) ∧
        final.code = 0xFE :: versionMap 3 ++ 0xFD :: 0xFC :: versionMap 4 ∧
        final.values.cborAuxdata.get? "3" = some (versionMap 3) ∧
        final.values.cborAuxdata.get? "1" = some [] ∧
        final.values.cborAuxdata.get? "2" = none := by
  have disjoint : ChunksDisjoint (numberedChunks threeChunks) := by decide +kernel
  have filled : ∀ numbered ∈ numberedChunks threeChunks,
      0 < numbered.chunk.span.length := by
    decide +kernel
  have checked : checkChunks threeChunks
      (PopulatedCode.ofCode threeVersions).code.length = .ok () := by
    decide +kernel
  refine ⟨disjoint, filled, checked, ?_⟩
  rcases @substitution_replaces_at_once .vyperBefore035 threeVersionsOnChain threeChunks
    (.ofCode threeVersions) disjoint filled checked with
    ⟨last, substituted, _, code, returned, none_iff, records⟩
  cases substituted with
  | none => exact absurd (none_iff.mp rfl) (by decide +kernel)
  | some final =>
      rcases records final rfl with ⟨same, changed, mem_changed_iff, _, records⟩
      have first := records.recorded ⟨"3", ⟨versionMap 4, 1⟩⟩
        ((mem_changed_iff _).mpr (by decide +kernel))
      have second := records.recorded ⟨"1", ⟨versionMap 4, 13⟩⟩
        ((mem_changed_iff _).mpr (by decide +kernel))
      have third := records.kept "2"
      refine ⟨final, returned, ?_, first, second, third ?_⟩
      · rw [same, code]
        decide +kernel
      · intro numbered member
        have unchanged : ∀ numbered ∈ numberedChunks threeChunks,
            chunkOnChain? .vyperBefore035 threeVersionsOnChain numbered.chunk.span ≠
              some (threeVersions.slice numbered.chunk.span) → numbered.id ≠ "2" := by
          decide +kernel
        rcases (mem_changed_iff numbered).mp member with ⟨listed, changes⟩
        exact unchanged numbered listed changes

end ContractCode.Matching
