import ContractCode.Auxdata.Chunk
import ContractCode.Proofs.VyperGrammar

/-! # Metadata with a content hash

Only a map can have the hash of the source metadata, and the one map that the Vyper
compiler writes has its version alone. So a content hash is found in Solidity metadata
only, which starts with the head of a map.
-/

namespace ContractCode

/-! ## Heads -/

namespace Cbor

theorem exists_head_of_definite? {major value : Nat} {input rest : Bytes}
    (found : definite? major input = some (value, rest)) :
    ∃ head tail, input = head :: tail ∧ majorOf head = major := by
  cases input with
  | nil => cases found
  | cons head tail =>
      rw [definite?] at found
      split at found
      · rename_i same
        exact ⟨head, tail, rfl, same⟩
      · cases found

end Cbor

/-! ## Vyper metadata -/

namespace VyperAuxdata

/-- If metadata of Vyper is a map, its only key is the name of the compiler. -/
theorem keys_of_decode {encoded : Bytes} {auxdata : VyperAuxdata} {size : Nat}
    {keys : List Bytes}
    (decoded : decode encoded = .ok (auxdata, size))
    (listed : SolidityAuxdata.mapKeys? encoded = some keys) : keys = [compilerKey] := by
  rcases decode_eq_ok_iff.mp decoded with ⟨_, encoding⟩
  rcases Option.bind_eq_some_iff.mp listed with ⟨⟨count, entries⟩, head, afterHead⟩
  rw [← List.take_append_drop size encoded] at head
  generalize encoded.take size = bytes at encoding head
  cases encoding with
  | version map =>
      cases map with
      | mk map compiler array majorHead minorHead patchHead =>
          simp only [List.append_assoc] at head
          rw [map.definite?_append (by decide)] at head
          cases head
          rcases Option.bind_eq_some_iff.mp afterHead with ⟨⟨name, _⟩, text, afterName⟩
          rcases Option.bind_eq_some_iff.mp afterName with ⟨_, _, afterValue⟩
          rcases Option.bind_eq_some_iff.mp afterValue with ⟨_, none, last⟩
          rw [(Cbor.string?_eq_some_iff (by decide)).mpr
            ⟨fun _ => isValid_compilerKey, _, compiler, rfl⟩] at text
          cases text
          cases none
          cases last
          rfl
  | layout array items map | hashed array length string items map =>
      simp only [List.append_assoc] at head
      rcases array.exists_cons (by decide) with ⟨first, tail, rfl, isArray, _⟩
      rcases Cbor.exists_head_of_definite? head with ⟨_, _, same, isMap⟩
      cases same
      exact absurd (isArray.symm.trans isMap) (by decide)

end VyperAuxdata

/-! ## Chunks at the end of code -/

namespace Auxdata

variable {style : Style} {code chunk : Bytes}

theorem isMetadata_of_isChunk (isChunk : isChunk style chunk = true) :
    isMetadata style (metadataOfChunk style chunk) = true := by
  rw [Auxdata.isChunk] at isChunk
  rw [metadataOfChunk, Style.trailerSize]
  split at isChunk
  · rename_i suffix
    rw [if_pos suffix]
    exact (Bool.and_eq_true_iff.mp isChunk).2
  · rename_i plain
    rw [if_neg plain]
    simpa using isChunk

theorem isChunk_iff_of_suffix (suffix : style.hasSuffix = true) :
    isChunk style chunk = true ↔
      suffixSize ≤ chunk.length ∧ style.chunkSize (encodedLength chunk) = chunk.length ∧
        isMetadata style (chunk.take (chunk.length - suffixSize)) = true := by
  simp only [isChunk, suffix, if_true, Bool.and_eq_true, decide_eq_true_eq,
    beq_iff_eq, and_assoc]

/-- Either nothing is cut off, or the last bytes are a chunk and other code is before
them. -/
theorem cutChunk_cases (style : Style) (code : Bytes) (size number : Nat) :
    cutChunk style code size number = .whole code ∨
      ∃ execution chunk, code = execution ++ chunk ∧ execution ≠ [] ∧
        isChunk style chunk = true ∧
        chunk.length = size ∧
        cutChunk style code size number = ⟨execution, some chunk, number⟩ := by
  rw [cutChunk]
  split
  · exact .inl rfl
  · rename_i longer
    dsimp only
    split
    · rename_i isChunk
      refine .inr ⟨_, _, (List.take_append_drop _ _).symm, ?_, isChunk, ?_, rfl⟩
      · apply List.length_pos_iff.mp
        rw [List.length_take]
        omega
      · rw [List.length_drop]
        omega
    · exact .inl rfl

theorem split_cases (style : Style) (code : Bytes) :
    split style code = .whole code ∨
      ∃ execution chunk number, code = execution ++ chunk ∧ execution ≠ [] ∧
        isChunk style chunk = true ∧
        (style.hasSuffix = false → chunk.length = fixedSize) ∧
        split style code = ⟨execution, some chunk, number⟩ := by
  rw [split]
  split
  · rename_i suffix
    split
    · exact .inl rfl
    · rcases cutChunk_cases style code (style.chunkSize (encodedLength code))
        (encodedLength code) with
        whole | ⟨execution, chunk, joined, nonempty, isChunk, _, cut⟩
      · exact .inl whole
      · exact .inr ⟨execution, chunk, _, joined, nonempty, isChunk,
          fun plain => absurd (suffix.symm.trans plain) nofun, cut⟩
  · rcases cutChunk_cases style code fixedSize fixedSize with
      whole | ⟨execution, chunk, joined, nonempty, isChunk, length, cut⟩
    · exact .inl whole
    · exact .inr ⟨execution, chunk, _, joined, nonempty, isChunk, fun _ => length, cut⟩

/-- A chunk that is cut off is the end of the code, and other code is before it. -/
theorem chunk_of_split (found : (split style code).chunk = some chunk) :
    isChunk style chunk = true ∧ chunk.length < code.length ∧
      chunk = code.drop (code.length - chunk.length) := by
  rcases split_cases style code with
    whole | ⟨execution, other, number, joined, nonempty, isChunk, _, cut⟩
  · rw [whole] at found
    cases found
  · rw [cut] at found
    cases found
    have filled := List.length_pos_iff.mpr nonempty
    have length : code.length - chunk.length = execution.length := by
      rw [joined, List.length_append, Nat.add_sub_cancel]
    refine ⟨isChunk, ?_, ?_⟩
    · rw [joined, List.length_append]
      omega
    · rw [length, joined, List.drop_left]

theorem encodedLength_append (code : Bytes) (long : suffixSize ≤ chunk.length) :
    encodedLength (code ++ chunk) = encodedLength chunk := by
  have start : (code ++ chunk).length - suffixSize =
      code.length + (chunk.length - suffixSize) := by
    rw [List.length_append]
    omega
  rw [encodedLength, start, List.drop_length_add_append]
  rfl

theorem cutChunk_append_of_isChunk (isChunk : isChunk style chunk = true)
    (nonempty : code ≠ [])
    (number : Nat) :
    cutChunk style (code ++ chunk) chunk.length number = ⟨code, some chunk, number⟩ := by
  have longer : ¬ (code ++ chunk).length ≤ chunk.length := by
    have filled := List.length_pos_iff.mpr nonempty
    rw [List.length_append]
    omega
  have start : (code ++ chunk).length - chunk.length = code.length := by
    rw [List.length_append, Nat.add_sub_cancel]
  rw [cutChunk, if_neg longer, start, List.drop_left, List.take_left]
  exact if_pos isChunk

/-- A chunk with a suffix is cut off whatever code it follows. -/
theorem split_append_of_isChunk (suffix : style.hasSuffix = true)
    (isChunk : isChunk style chunk = true) (nonempty : code ≠ []) :
    split style (code ++ chunk) = ⟨code, some chunk, encodedLength chunk⟩ := by
  rcases (isChunk_iff_of_suffix suffix).mp isChunk with ⟨long, size, _⟩
  have notShort : ¬ (code ++ chunk).length < suffixSize := by
    rw [List.length_append]
    omega
  rw [split, if_pos suffix, if_neg notShort, encodedLength_append code long, size]
  exact cutChunk_append_of_isChunk isChunk nonempty _

theorem decode_of_isMetadata {bytes : Bytes} (other : style ≠ .solidity)
    (metadata : isMetadata style bytes = true) :
    ∃ auxdata, VyperAuxdata.decode bytes = .ok (auxdata, bytes.length) := by
  have decoded : style.decodedSize? bytes = some bytes.length :=
    eq_of_beq (Bool.and_eq_true_iff.mp metadata).2
  rw [Style.decodedSize?.eq_def] at decoded
  split at decoded
  · exact absurd rfl other
  · split at decoded
    · rename_i auxdata size found
      cases decoded
      exact ⟨auxdata, found⟩
    · cases decoded

/-- Only Solidity metadata has a content hash, and it starts with the head of a map. -/
theorem chunk_of_hasContentHash (hashed : hasContentHash style code = true) :
    style = .solidity ∧ ∃ chunk head rest, (split style code).chunk = some chunk ∧
      chunk = head :: rest ∧ Cbor.majorOf head = Cbor.mapType := by
  rw [hasContentHash] at hashed
  split at hashed
  · cases hashed
  · rename_i chunk found
    split at hashed
    · cases hashed
    · rename_i keys listed
      constructor
      · apply Decidable.byContradiction
        intro other
        rcases decode_of_isMetadata other (isMetadata_of_isChunk (chunk_of_split found).1)
          with ⟨auxdata, decoded⟩
        rw [VyperAuxdata.keys_of_decode decoded listed] at hashed
        exact absurd hashed (by decide)
      · rw [SolidityAuxdata.mapKeys?] at listed
        rcases Option.bind_eq_some_iff.mp listed with ⟨_, map, _⟩
        rcases Cbor.exists_head_of_definite? map with ⟨head, tail, starts, isMap⟩
        rcases List.take_prefix (chunk.length - style.trailerSize) chunk with
          ⟨rest, whole⟩
        rw [metadataOfChunk] at starts
        rw [starts] at whole
        exact ⟨chunk, head, tail ++ rest, found, whole.symm, isMap⟩

theorem hasContentHash_eq_false (other : style ≠ .solidity) (code : Bytes) :
    hasContentHash style code = false :=
  Bool.eq_false_iff.mpr fun hashed => other (chunk_of_hasContentHash hashed).1

end Auxdata

end ContractCode
