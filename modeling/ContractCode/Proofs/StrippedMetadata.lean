import ContractCode.Proofs.ChunkBoundaries
import ContractCode.Proofs.CodesAlone
import ContractCode.Proofs.MetadataPasses
import ContractCode.Proofs.WellFormedItems

/-! # What is stripped from code

Codes that match without their metadata have the same execution code, and what is left
out of each of them is nothing or a map with known keys and its length. The compiler
writes a map of well-formed values with one entry at least. Two other maps are taken for
metadata as well: the one without entries, and maps in which some value is ended by a
break that ends no container.
-/

namespace ContractCode

namespace SolidityAuxdata

variable {entries others : List Entry} {bytes metadata suffix : Bytes}

theorem IsMap.unique (isMap : IsMap entries bytes)
    (passed : ∀ entry ∈ entries, Cbor.IsPassed entry.value)
    (other : IsMap others bytes)
    (otherPassed : ∀ entry ∈ others, Cbor.IsPassed entry.value) :
    others = entries := by
  have same := (other.secondPass?_eq otherPassed).symm.trans (isMap.secondPass?_eq passed)
  exact congrArg Prod.fst (Option.some.inj same)

theorem AreEntries.length_le (areEntries : AreEntries entries bytes) :
    ∀ entry ∈ entries, entry.value.length ≤ bytes.length := by
  induction areEntries with
  | nil => nofun
  | cons key valid areEntries induction =>
      simp only [List.length_append]
      rw [List.forall_mem_cons]
      refine ⟨by omega, fun entry mem => ?_⟩
      have := induction entry mem
      omega

theorem IsMap.length_le (isMap : IsMap entries bytes) :
    ∀ entry ∈ entries, entry.value.length ≤ bytes.length := by
  rcases isMap with ⟨head, body, _, areEntries, rfl⟩
  intro entry mem
  rw [List.length_append]
  exact Nat.le_trans (areEntries.length_le entry mem) (Nat.le_add_left _ _)

/-- The bytes are a map with these entries, whose keys are known, and its length. -/
def IsChunkWith (entries : List Entry) (bytes : Bytes) : Prop :=
  ∃ metadata suffix, bytes = metadata ++ suffix ∧ IsMap entries metadata ∧
    Auxdata.IsSuffix .solidity metadata.length suffix ∧
    ∀ entry ∈ entries, entry.key ∈ knownKeys

/-- The bytes are what the compiler appends to code: there is an entry, and the values
are well-formed. -/
def IsAppended (bytes : Bytes) : Prop :=
  ∃ entries, IsChunkWith entries bytes ∧ entries ≠ [] ∧
    ∀ entry ∈ entries, Cbor.IsItem entry.value

/-- The length of a map is told in two bytes, so its values are short. -/
theorem IsChunkWith.length_lt_largest (chunk : IsChunkWith entries bytes) :
    ∀ entry ∈ entries, entry.value.length < Cbor.largest := by
  rcases chunk with ⟨metadata, suffix, _, isMap, isSuffix, _⟩
  intro entry mem
  have told := BigEndian.decode_lt suffix
  rw [isSuffix.1, isSuffix.2] at told
  have small : BigEndian.bound Auxdata.suffixSize < Cbor.largest := by decide
  exact Nat.lt_trans (Nat.lt_of_le_of_lt (isMap.length_le entry mem) told) small

theorem IsChunkWith.unique (chunk : IsChunkWith entries bytes)
    (passed : ∀ entry ∈ entries, Cbor.IsPassed entry.value)
    (other : IsChunkWith others bytes)
    (otherPassed : ∀ entry ∈ others, Cbor.IsPassed entry.value) : others = entries := by
  rcases chunk with ⟨metadata, suffix, joined, isMap, isSuffix, _⟩
  rcases other with ⟨otherMetadata, otherSuffix, otherJoined, otherMap, otherIsSuffix, _⟩
  have length : suffix.length = otherSuffix.length :=
    isSuffix.1.trans otherIsSuffix.1.symm
  rcases List.append_inj' (joined.symm.trans otherJoined) length with ⟨rfl, rfl⟩
  exact isMap.unique passed otherMap otherPassed

/-- A chunk is appended by the compiler exactly if the entries that are read of it are
there and well-formed. -/
theorem IsChunkWith.isAppended_iff (chunk : IsChunkWith entries bytes)
    (passed : ∀ entry ∈ entries, Cbor.IsPassed entry.value) :
    IsAppended bytes ↔ entries ≠ [] ∧ ∀ entry ∈ entries, Cbor.IsItem entry.value := by
  constructor
  · rintro ⟨others, other, some, areItems⟩
    -- Well-formed values are passed over, so the decoder reads these entries and no
    -- others.
    have otherPassed : ∀ entry ∈ others, Cbor.IsPassed entry.value := fun entry mem =>
      (areItems entry mem).isPassed (Nat.le_of_lt (other.length_lt_largest entry mem))
    rw [← chunk.unique passed other otherPassed]
    exact ⟨some, areItems⟩
  · intro wellFormed
    exact ⟨entries, chunk, wellFormed⟩

/-- Metadata is a map with known keys. -/
theorem exists_isMap_of_metadataSize? (found : metadataSize? bytes = some bytes.length) :
    ∃ entries, IsMap entries bytes ∧ (∀ entry ∈ entries, Cbor.IsPassed entry.value) ∧
      ∀ entry ∈ entries, entry.key ∈ knownKeys := by
  rcases Option.bind_eq_some_iff.mp found with ⟨size, sized, afterSize⟩
  rcases Option.bind_eq_some_iff.mp afterSize with ⟨keys, listed, checked⟩
  split at checked
  · rename_i known
    cases checked
    rcases exists_isMap_of_size? sized with ⟨entries, isMap, passed, _⟩
    rw [List.take_length] at isMap listed
    rw [mapKeys?_eq, isMap.secondPass?_eq passed] at listed
    cases listed
    refine ⟨entries, isMap, passed, ?_⟩
    simpa using known
  · cases checked

end SolidityAuxdata

namespace Auxdata

open SolidityAuxdata (IsChunkWith)

/-- After the execution code there is nothing, or a chunk of entries that have been
read. -/
theorem exists_leftOut (code : Bytes) :
    ∃ tail, code = executionCode .solidity code ++ tail ∧
      (tail = [] ∨ ∃ entries, IsChunkWith entries tail ∧
        ∀ entry ∈ entries, Cbor.IsPassed entry.value) := by
  rcases split_whole_or_areOf .solidity code with whole | ⟨parts, are⟩
  · rw [executionCode, whole]
    exact ⟨[], (List.append_nil code).symm, .inl rfl⟩
  · rcases SolidityAuxdata.exists_isMap_of_metadataSize? are.decoded with
      ⟨entries, isMap, passed, known⟩
    rw [executionCode, split_of_areOf are]
    exact ⟨_, are.joined, .inr ⟨entries, ⟨_, _, rfl, isMap, are.suffix, known⟩, passed⟩⟩

end Auxdata

namespace Matching

open SolidityAuxdata (IsChunkWith IsAppended)

/-- Codes that match without their metadata differ in what is left out of them, and that
is nothing or a chunk with known keys. A chunk is what the compiler appends exactly if
it has entries and all of their values are well-formed, and a value that is not
well-formed has a break in it. -/
theorem stripped_metadata {onChain compiled : Bytes}
    (stripped : (matchSimple .solidity .runtime onChain compiled).message =
      some strippedMetadataMessage) :
    ∃ execution onChainTail compiledTail : Bytes,
      (onChain = execution ++ onChainTail ∧
        Auxdata.executionCode .solidity onChain = execution) ∧
      (compiled = execution ++ compiledTail ∧
        Auxdata.executionCode .solidity compiled = execution) ∧
      onChainTail ≠ compiledTail ∧
      ∀ tail ∈ [onChainTail, compiledTail], tail = [] ∨
        ∃ entries, IsChunkWith entries tail ∧
          (∀ entry ∈ entries, Cbor.IsItem entry.value ∨ Cbor.HasBreak entry.value) ∧
          (IsAppended tail ↔
            entries ≠ [] ∧ ∀ entry ∈ entries, Cbor.IsItem entry.value) := by
  rcases message_matchSimple_iff.mp stripped with ⟨isMatch, unlike⟩
  rcases isMatch_matchSimple_iff.mp isMatch with ⟨_, hasExecution⟩
  have same : Auxdata.executionCode .solidity compiled =
      Auxdata.executionCode .solidity onChain := hasExecution
  rcases Auxdata.exists_leftOut onChain with ⟨onChainTail, onChainJoined, onChainCases⟩
  rcases Auxdata.exists_leftOut compiled with
    ⟨compiledTail, compiledJoined, compiledCases⟩
  rw [same] at compiledJoined
  refine ⟨_, onChainTail, compiledTail, ⟨onChainJoined, rfl⟩,
    ⟨compiledJoined, same⟩, ?_, ?_⟩
  · rintro rfl
    exact unlike (compiledJoined.trans onChainJoined.symm)
  · intro tail mem
    have read : tail = [] ∨
        ∃ entries, IsChunkWith entries tail ∧
        ∀ entry ∈ entries, Cbor.IsPassed entry.value := by
      rcases List.mem_pair.mp mem with rfl | rfl
      · exact onChainCases
      · exact compiledCases
    rcases read with empty | ⟨entries, chunk, passed⟩
    · exact .inl empty
    · refine .inr ⟨entries, chunk, ?_, chunk.isAppended_iff passed⟩
      exact fun entry mem =>
        (passed entry mem).isItem_or_hasBreak (chunk.length_lt_largest entry mem)

/-! The same code with the metadata of two versions of the compiler. -/

def oldVersion : Bytes :=
  [0xFE, 0xA1, 0x64, 0x73, 0x6F, 0x6C, 0x63, 0x43, 0, 8, 14, 0, 10]

def newVersion : Bytes :=
  [0xFE, 0xA1, 0x64, 0x73, 0x6F, 0x6C, 0x63, 0x43, 0, 8, 15, 0, 10]

theorem stripped_metadata_newVersion :
    (matchSimple .solidity .runtime newVersion oldVersion).message =
      some strippedMetadataMessage ∧
      ∃ execution newTail oldTail : Bytes,
        (newVersion = execution ++ newTail ∧
          Auxdata.executionCode .solidity newVersion = execution) ∧
        (oldVersion = execution ++ oldTail ∧
          Auxdata.executionCode .solidity oldVersion = execution) ∧
        newTail ≠ oldTail ∧
        ∀ tail ∈ [newTail, oldTail], tail = [] ∨
          ∃ entries, IsChunkWith entries tail ∧
            (∀ entry ∈ entries, Cbor.IsItem entry.value ∨ Cbor.HasBreak entry.value) ∧
            (IsAppended tail ↔
              entries ≠ [] ∧ ∀ entry ∈ entries, Cbor.IsItem entry.value) :=
  have stripped : (matchSimple .solidity .runtime newVersion oldVersion).message =
      some strippedMetadataMessage := by decide +kernel
  ⟨stripped, stripped_metadata stripped⟩

/-- A map without entries is left out, though it is no metadata. -/
theorem not_stripped_metadata :
    ¬ ∀ onChain compiled tail : Bytes,
      (matchSimple .solidity .runtime onChain compiled).message =
        some strippedMetadataMessage →
        onChain = Auxdata.executionCode .solidity onChain ++ tail → tail = [] ∨
        IsAppended tail := by
  intro all
  have isMap : SolidityAuxdata.IsMap [] [0xA0] :=
    ⟨_, [], ⟨.short, by decide, rfl⟩, .nil, rfl⟩
  have chunk : IsChunkWith [] [0xA0, 0, 1] :=
    ⟨[0xA0], [0, 1], rfl, isMap, ⟨rfl, by decide⟩, nofun⟩
  rcases all [0xFE, 0xA0, 0, 1] [0xFE] [0xA0, 0, 1] (by decide +kernel)
    (by decide +kernel) with empty | appended
  · cases empty
  · exact ((chunk.isAppended_iff nofun).mp appended).1 rfl

end Matching

end ContractCode
