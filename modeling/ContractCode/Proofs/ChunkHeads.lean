import ContractCode.Proofs.ContentHash
import ContractCode.Proofs.Filling

/-! # How chunks start

A chunk of metadata starts with the head of a map or an array. That is neither the
instruction that pushes an address nor one of the zero bytes of an address that is not
known yet, so no chunk starts there.
-/

namespace ContractCode

/-- The byte is the head of a map or an array. -/
def Cbor.HeadsContainer (head : UInt8) : Prop :=
  majorOf head = mapType ∨ majorOf head = arrayType

instance (head : UInt8) : Decidable (Cbor.HeadsContainer head) :=
  inferInstanceAs (Decidable (_ ∨ _))

theorem VyperAuxdata.IsEncoding.exists_head {auxdata : VyperAuxdata} {bytes : Bytes}
    (encoding : IsEncoding auxdata bytes) :
    ∃ head tail, bytes = head :: tail ∧ Cbor.HeadsContainer head := by
  cases encoding with
  | version map =>
      cases map with
      | mk map compiler array majorHead minorHead patchHead =>
          rcases map.exists_cons (by decide) with ⟨head, tail, rfl, isMap, _⟩
          exact ⟨head, _, rfl, .inl isMap⟩
  | layout array items map | hashed array length string items map =>
      rcases array.exists_cons (by decide) with ⟨head, tail, rfl, isArray, _⟩
      exact ⟨head, _, rfl, .inr isArray⟩

namespace Auxdata

variable {style : Style} {bytes chunk : Bytes}

theorem exists_head_of_isMetadata (metadata : isMetadata style bytes = true) :
    ∃ head tail, bytes = head :: tail ∧ Cbor.HeadsContainer head := by
  by_cases solidity : style = .solidity
  · subst solidity
    have decoded : SolidityAuxdata.metadataSize? bytes = some bytes.length :=
      eq_of_beq (Bool.and_eq_true_iff.mp metadata).2
    rcases Option.bind_eq_some_iff.mp decoded with ⟨size, sized, _⟩
    rcases Option.bind_eq_some_iff.mp sized with ⟨_, map, _⟩
    rcases Cbor.exists_head_of_definite? map with ⟨head, tail, rfl, isMap⟩
    exact ⟨head, tail, rfl, .inl isMap⟩
  · rcases decode_of_isMetadata solidity metadata with ⟨auxdata, decoded⟩
    have encoding := (VyperAuxdata.decode_eq_ok_iff.mp decoded).2
    rw [List.take_length] at encoding
    exact encoding.exists_head

theorem exists_head_of_isChunk (isChunk : isChunk style chunk = true) :
    ∃ head tail, chunk = head :: tail ∧ Cbor.HeadsContainer head := by
  rcases exists_head_of_isMetadata (isMetadata_of_isChunk isChunk) with
    ⟨head, tail, starts, container⟩
  rcases List.take_prefix (chunk.length - style.trailerSize) chunk with ⟨trailer, whole⟩
  rw [metadataOfChunk] at starts
  rw [starts] at whole
  exact ⟨head, tail ++ trailer, whole.symm, container⟩

end Auxdata

/-- No chunk starts before the end of an address that is not known yet. -/
theorem CallProtection.Awaits.stop_le_of_isChunk {style : Auxdata.Style} {code : Bytes}
    {span : Span}
    (awaits : Awaits code) (isChunk : Auxdata.isChunk style (code.slice span) = true) :
    addressSpan.stop ≤ span.start := by
  rcases Auxdata.exists_head_of_isChunk isChunk with ⟨head, tail, starts, container⟩
  apply Nat.le_of_not_lt
  intro before
  have first : (code.slice span)[0]? = some head := congrArg (·[0]?) starts
  rw [Bytes.getElem?_slice] at first
  split at first
  · rw [Nat.add_zero, awaits.getElem? before] at first
    split at first
    · cases first
      exact absurd container (by decide)
    · cases first
      exact absurd container (by decide)
  · cases first

end ContractCode
