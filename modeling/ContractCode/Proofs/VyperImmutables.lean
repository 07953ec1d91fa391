import ContractCode.Proofs.Outcome
import ContractCode.Proofs.ContentHash

/-! # Immutables of Vyper contracts

Creation code of Vyper ends with metadata that tells how long the runtime code is and
how many bytes of immutables follow it on chain. Read from there, the references lead to
exactly these bytes, so runtime code on chain matches whatever its immutables are.
-/

namespace ContractCode

/-! ## References from creation code -/

namespace Auxdata

variable {encoded : Bytes} {auxdata : VyperAuxdata}

/-- Metadata with the length suffix of the newest style, which counts itself. -/
def withVyperLength (encoded : Bytes) : Bytes :=
  encoded ++ BigEndian.encode suffixSize (encoded.length + suffixSize)

theorem metadataOfChunk_withVyperLength (encoded : Bytes) :
    metadataOfChunk .vyper (withVyperLength encoded) = encoded := by
  have length : (withVyperLength encoded).length - Style.vyper.trailerSize =
      encoded.length := by
    rw [withVyperLength, List.length_append, BigEndian.length_encode]
    exact Nat.add_sub_cancel _ _
  rw [metadataOfChunk, length, withVyperLength, List.take_left]

theorem encodedLength_withVyperLength (fits : encoded.length + suffixSize < UInt16.size) :
    encodedLength (withVyperLength encoded) = encoded.length + suffixSize := by
  have suffix : suffixSize ≤
      (BigEndian.encode suffixSize (encoded.length + suffixSize)).length :=
    Nat.le_of_eq (BigEndian.length_encode _ _).symm
  rw [withVyperLength, encodedLength_append encoded suffix, encodedLength,
    BigEndian.length_encode, Nat.sub_self, List.drop_zero]
  exact BigEndian.decode_encode fits

theorem isChunk_withVyperLength
    (decoded : VyperAuxdata.decode encoded = .ok (auxdata, encoded.length))
    (fits : encoded.length + suffixSize < UInt16.size) :
    isChunk .vyper (withVyperLength encoded) = true := by
  have length : (withVyperLength encoded).length = encoded.length + suffixSize := by
    rw [withVyperLength, List.length_append, BigEndian.length_encode]
  have nonempty : encoded ≠ [] := by
    rintro rfl
    cases decoded
  have metadata : isMetadata .vyper encoded = true := by
    simp [isMetadata, nonempty, Style.decodedSize?, decoded]
  have whole := metadataOfChunk_withVyperLength encoded
  rw [metadataOfChunk] at whole
  refine (isChunk_iff_of_suffix rfl).mpr ⟨?_, ?_, ?_⟩
  · rw [length]
    exact Nat.le_add_left _ _
  · rw [length, Style.chunkSize, encodedLength_withVyperLength fits]
  · exact (congrArg (isMetadata .vyper) whole).trans metadata

end Auxdata

namespace Immutable

theorem word?_eq_some {number : Nat} (fits : number < UInt32.size) :
    ∃ word, word? number = some word ∧ word.toNat = number :=
  ⟨UInt32.ofNat number, if_pos fits, UInt32.toNat_ofNat_of_lt' fits⟩

/-- The layout of a contract with immutables is one reference to all of them, behind the
runtime code. -/
theorem referencesOfLayout?_eq_some {layout : CodeLayout}
    (runtimeFits : layout.runtimeCodeLength < UInt32.size)
    (immutablesFit : layout.immutablesLength < UInt32.size)
    (some : 0 < layout.immutablesLength) :
    ∃ reference : Reference,
      reference.span = ⟨layout.runtimeCodeLength, layout.immutablesLength⟩ ∧
      referencesOfLayout? layout =
        .some (Dictionary.empty.insert vyperId [reference]) := by
  rcases word?_eq_some runtimeFits with ⟨start, startWord, startValue⟩
  rcases word?_eq_some immutablesFit with ⟨length, lengthWord, lengthValue⟩
  refine ⟨⟨start, length⟩, ?_, ?_⟩
  · rw [Reference.span, startValue, lengthValue]
  · rw [referencesOfLayout?, if_neg (Nat.ne_of_gt some), startWord, lengthWord]
    rfl

/-- Metadata is found at the end of creation code whatever the code before it is. -/
theorem vyperReferences?_append {execution encoded : Bytes} {auxdata : VyperAuxdata}
    {layout : CodeLayout} (nonempty : execution ≠ [])
    (decoded : VyperAuxdata.decode encoded = .ok (auxdata, encoded.length))
    (sized : auxdata.layout = some layout)
    (fits : encoded.length + Auxdata.suffixSize < UInt16.size) :
    vyperReferences? (execution ++ Auxdata.withVyperLength encoded) =
      referencesOfLayout? layout := by
  have split := Auxdata.split_append_of_isChunk rfl
    (Auxdata.isChunk_withVyperLength decoded fits) nonempty
  simp only [vyperReferences?, split, Option.bind_eq_bind, Option.bind_some,
    Auxdata.metadataOfChunk_withVyperLength, decoded, sized]

/-! ## The values behind the code -/

theorem orderedTargets_single (id : String) (reference : Reference) :
    orderedTargets (Dictionary.empty.insert id [reference]) = [⟨id, reference⟩] :=
  List.mergeSort_singleton _

/-- The code with values behind it that all belong to one immutable. -/
def appended (id : String) (code values : Bytes) : PopulatedCode where
  code := code ++ values
  transformations := [.insertImmutable code.length id]
  values := { immutables := Dictionary.empty.insert id values }

/-- A reference that starts where the code ends makes it longer by what is on chain
there. -/
theorem resolve_behind {style : Auxdata.Style} {code values : Bytes}
    {reference : Reference}
    (id : String) (vyper : style ≠ .solidity)
    (place : reference.span = ⟨code.length, values.length⟩) :
    resolve style (code ++ values) (Dictionary.empty.insert id [reference])
      (.ofCode code) =
      .ok (appended id code values) := by
  have value : (code ++ values).slice? reference.span = some values := by
    apply Bytes.slice?_eq_some_iff.mpr
    rw [place, Bytes.slice, List.drop_left, List.take_length, Span.Within,
      List.length_append]
    exact ⟨Nat.le_refl _, rfl⟩
  have atEnd : appends style (PopulatedCode.ofCode code).code reference.span = true :=
    appends_eq_true_iff.mpr ⟨vyper, congrArg Span.start place⟩
  rw [resolve, orderedTargets_single, List.foldlM_cons]
  simp only [resolveTarget, value, atEnd, if_true]
  rw [place]
  rfl

end Immutable

/-! ## The match -/

/-- Code on chain that goes on behind the code has the same address at its start. -/
theorem CallProtection.resolve_of_prefix {onChain : Bytes} {populated : PopulatedCode}
    (starts : populated.code <+: onChain) : resolve onChain populated = populated := by
  have step := step_resolve onChain populated
  generalize resolve onChain populated = next at step
  cases step with
  | kept same => rfl
  | filled awaits pushes differs =>
      rcases starts with ⟨behind, rfl⟩
      exact absurd (Bytes.slice_append_of_within awaits.1.2 behind).symm differs

namespace Matching

/-- The references that creation code of Vyper has in its metadata lead to the
immutables on chain: runtime code with any immutables behind it matches, and they are
the one thing that is logged and recorded. -/
theorem match_of_vyperImmutables {execution encoded : Bytes} {auxdata : VyperAuxdata}
    {layout : CodeLayout} (nonempty : execution ≠ [])
    (decoded : VyperAuxdata.decode encoded = .ok (auxdata, encoded.length))
    (sized : auxdata.layout = some layout)
    (runtimeFits : layout.runtimeCodeLength < UInt32.size)
    (hasImmutables : 0 < layout.immutablesLength)
    (immutablesFit : layout.immutablesLength < UInt32.size)
    (fits : encoded.length + Auxdata.suffixSize < UInt16.size) :
    ∃ reference : Reference,
      reference.span = ⟨layout.runtimeCodeLength, layout.immutablesLength⟩ ∧
      Immutable.vyperReferences? (execution ++ Auxdata.withVyperLength encoded) =
        some (Dictionary.empty.insert "0" [reference]) ∧
      ∀ (runtime : CompiledCode) (values : Bytes),
        runtime.code.length = layout.runtimeCodeLength →
        values.length = layout.immutablesLength →
        matchRuntime .vyper (runtime.code ++ values) runtime
            { immutableReferences := Dictionary.empty.insert "0" [reference] } =
          .ok { status := .equivalent
                transformations := [.insertImmutable layout.runtimeCodeLength "0"]
                values := { immutables := Dictionary.empty.insert "0" values }
                libraryMap := none
                message := none
                mode := .artifacts } := by
  rcases Immutable.referencesOfLayout?_eq_some runtimeFits immutablesFit hasImmutables
    with ⟨reference, span, references⟩
  refine ⟨reference, span, ?_, ?_⟩
  · rw [Immutable.vyperReferences?_append nonempty decoded sized fits]
    exact references
  · intro runtime values runtimeLength valuesLength
    have place : reference.span = ⟨runtime.code.length, values.length⟩ := by
      rw [span, runtimeLength, valuesLength]
    have protection :
        CallProtection.resolve (runtime.code ++ values) (.ofCode runtime.code) =
        .ofCode runtime.code := CallProtection.resolve_of_prefix (List.prefix_append _ _)
    have filled : populate .vyper .runtime (runtime.code ++ values) runtime
        { immutableReferences := Dictionary.empty.insert "0" [reference] } =
          .ok (Immutable.appended "0" runtime.code values) := by
      apply populateRuntime_eq_ok_iff.mpr ⟨_, ?_, rfl⟩
      rw [protection]
      exact Immutable.resolve_behind "0" nofun place
    have same :
        agrees .runtime (runtime.code ++ values) (runtime.code ++ values) = true := by
      have whole :
          IsDeployed .runtime (runtime.code ++ values) (runtime.code ++ values) := rfl
      apply agrees_eq_true_iff.mpr ⟨?_, whole⟩
      apply List.append_ne_nil_of_right_ne_nil
      apply List.length_pos_iff.mp
      rw [valuesLength]
      exact hasImmutables
    change matchCode .vyper .runtime _ _ _ {} = _
    rw [matchCode_of_populate filled, compare_of_agrees rfl same, ← runtimeLength]
    change Except.ok
      (MatchResult.ofPopulated (directStatus .vyper runtime.code) _ none) = _
    rw [directStatus, Auxdata.hasContentHash_eq_false (by decide)]
    rfl

/-! Metadata with heads that are longer than they need to be, for three bytes of code
and two of immutables. -/

def twoByteLayout : CodeLayout := ⟨3, [7], 2⟩

def twoByteMetadata : Bytes :=
  [0x98, 4, 0x19, 0, 3, 0x81, 7, 0x18, 2, 0xA1, 0x65, 0x76, 0x79, 0x70, 0x65, 0x72,
    0x83, 0, 4, 1]

theorem match_of_twoByteMetadata :
    VyperAuxdata.decode twoByteMetadata =
        .ok (⟨none, some twoByteLayout, .release 0 4 1⟩, twoByteMetadata.length) ∧
      twoByteLayout.runtimeCodeLength < UInt32.size ∧ 0 < twoByteLayout.immutablesLength ∧
      twoByteLayout.immutablesLength < UInt32.size ∧
      twoByteMetadata.length + Auxdata.suffixSize < UInt16.size ∧
      ∃ reference : Reference, reference.span = ⟨3, 2⟩ ∧
        Immutable.vyperReferences?
          ([0x61, 0x12] ++ Auxdata.withVyperLength twoByteMetadata) =
          some (Dictionary.empty.insert "0" [reference]) ∧
        matchRuntime .vyper ([0x5F, 0x35, 0xFD] ++ [0xAB, 0xCD])
          (.ofBytes [0x5F, 0x35, 0xFD])
            { immutableReferences := Dictionary.empty.insert "0" [reference] } =
          .ok { status := .equivalent
                transformations := [.insertImmutable 3 "0"]
                values := { immutables := Dictionary.empty.insert "0" [0xAB, 0xCD] }
                libraryMap := none
                message := none
                mode := .artifacts } := by
  have decoded : VyperAuxdata.decode twoByteMetadata =
      .ok (⟨none, some twoByteLayout, .release 0 4 1⟩, twoByteMetadata.length) := rfl
  have code : ([0x61, 0x12] : Bytes) ≠ [] := nofun
  rcases match_of_vyperImmutables code decoded rfl (by decide) (by decide) (by decide)
    (by decide) with ⟨reference, span, references, matched⟩
  exact ⟨decoded, by decide, by decide, by decide, by decide, reference, span, references,
    matched (.ofBytes [0x5F, 0x35, 0xFD]) [0xAB, 0xCD] rfl rfl⟩

end Matching

end ContractCode
