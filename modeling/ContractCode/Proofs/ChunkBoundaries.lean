import ContractCode.Proofs.Following

/-! # Where chunks begin and end

At the end of code a chunk is found from behind: the suffix tells its size. At the start
of code it is found from the front: the metadata tells its size. Both ways lead to the
chunks of the style and to no others. Code has at most one chunk at its end that leaves
other code before it, in the one way that the layout of the style allows, and at most
one chunk at its start.
-/

namespace ContractCode.Auxdata

variable {style : Style} {code chunk bytes : Bytes} {size : Nat}

/-! ## The layout of a style -/

/-- The suffix that the style puts behind so many bytes of metadata: their number in two
bytes, or the number of all bytes of the chunk. One style has no suffix, and metadata of
one size only. -/
def IsSuffix (style : Style) (size : Nat) (suffix : Bytes) : Prop :=
  match style with
  | .solidity | .vyperBefore0310 => suffix.length = suffixSize ∧
      BigEndian.decode suffix = size
  | .vyper => suffix.length = suffixSize ∧ BigEndian.decode suffix = size + suffixSize
  | .vyperBefore035 => suffix = [] ∧ size = fixedSize

structure Parts where
  execution : Bytes
  metadata : Bytes
  suffix : Bytes

/-- The number that the suffix tells. -/
def Parts.number (style : Style) (parts : Parts) : Nat :=
  if style.hasSuffix then BigEndian.decode parts.suffix else fixedSize

/-- The code consists of these parts, in the layout of the style. -/
structure Parts.AreOf (style : Style) (code : Bytes) (parts : Parts) : Prop where
  joined : code = parts.execution ++ (parts.metadata ++ parts.suffix)
  execution : parts.execution ≠ []
  metadata : parts.metadata ≠ []
  decoded : style.decodedSize? parts.metadata = some parts.metadata.length
  suffix : IsSuffix style parts.metadata.length parts.suffix

theorem isSuffix_iff_of_hasSuffix (hasSuffix : style.hasSuffix = true) :
    IsSuffix style size bytes ↔
      bytes.length = suffixSize ∧
      style.chunkSize (BigEndian.decode bytes) = size + suffixSize := by
  cases style with
  | solidity | vyperBefore0310 => simp [IsSuffix, Style.chunkSize]
  | vyper => rfl
  | vyperBefore035 => cases hasSuffix

theorem isSuffix_iff_of_not_hasSuffix (plain : style.hasSuffix = false) :
    IsSuffix style size bytes ↔ bytes = [] ∧ size = fixedSize := by
  cases style with
  | solidity | vyper | vyperBefore0310 => cases plain
  | vyperBefore035 => rfl

theorem length_of_isSuffix (isSuffix : IsSuffix style size bytes) :
    bytes.length = style.trailerSize := by
  rw [Style.trailerSize]
  split
  · rename_i hasSuffix
    exact ((isSuffix_iff_of_hasSuffix hasSuffix).mp isSuffix).1
  · rename_i plain
    rw [((isSuffix_iff_of_not_hasSuffix (Bool.not_eq_true _ ▸ plain)).mp isSuffix).1]
    rfl

/-! ## From the parts to the chunk -/

/-- The number in a suffix is that in the last two bytes of any code that ends with it. -/
theorem encodedLength_append_suffix (length : bytes.length = suffixSize)
    (metadata : Bytes) :
    encodedLength (metadata ++ bytes) = BigEndian.decode bytes := by
  rw [encodedLength_append metadata (Nat.le_of_eq length.symm), encodedLength, length,
    Nat.sub_self, List.drop_zero]

theorem Parts.AreOf.isChunk {parts : Parts} (are : parts.AreOf style code) :
    isChunk style (parts.metadata ++ parts.suffix) = true := by
  have metadata : isMetadata style parts.metadata = true :=
    isMetadata_iff.mpr ⟨are.metadata, are.decoded⟩
  cases hasSuffix : style.hasSuffix with
  | true =>
      rcases (isSuffix_iff_of_hasSuffix hasSuffix).mp are.suffix with ⟨length, size⟩
      apply (isChunk_iff_of_suffix hasSuffix).mpr
      rw [encodedLength_append_suffix length, size, List.length_append, length,
        Nat.add_sub_cancel, List.take_left]
      exact ⟨Nat.le_add_left _ _, rfl, metadata⟩
  | false =>
      rw [((isSuffix_iff_of_not_hasSuffix hasSuffix).mp are.suffix).1, List.append_nil,
        Auxdata.isChunk, hasSuffix]
      exact metadata

theorem split_of_areOf {parts : Parts} (are : parts.AreOf style code) :
    split style code =
      ⟨parts.execution, some (parts.metadata ++ parts.suffix), parts.number style⟩ := by
  have isChunk := are.isChunk
  rw [are.joined, Parts.number]
  cases hasSuffix : style.hasSuffix with
  | true =>
      rcases (isSuffix_iff_of_hasSuffix hasSuffix).mp are.suffix with ⟨length, _⟩
      rw [split_append_of_isChunk hasSuffix isChunk are.execution,
        encodedLength_append_suffix length]
      rfl
  | false =>
      rcases (isSuffix_iff_of_not_hasSuffix hasSuffix).mp are.suffix with ⟨empty, size⟩
      have length : (parts.metadata ++ parts.suffix).length = fixedSize := by
        rw [empty, List.append_nil, size]
      rw [split, hasSuffix, ← length]
      exact cutChunk_append_of_isChunk isChunk are.execution _

/-! ## From the chunk to the parts -/

theorem isSuffix_of_isChunk (isChunk : isChunk style chunk = true)
    (fixed : style.hasSuffix = false → chunk.length = fixedSize) :
    IsSuffix style (metadataOfChunk style chunk).length
      (chunk.drop (chunk.length - style.trailerSize)) := by
  have length : (metadataOfChunk style chunk).length = chunk.length - style.trailerSize :=
    List.length_take_of_le (Nat.sub_le _ _)
  rw [length, Style.trailerSize]
  cases hasSuffix : style.hasSuffix with
  | true =>
      have parts := (isChunk_iff_of_suffix hasSuffix).mp isChunk
      apply (isSuffix_iff_of_hasSuffix hasSuffix).mpr
      rw [if_pos rfl, List.length_drop, Nat.sub_sub_self parts.1,
        Nat.sub_add_cancel parts.1]
      exact ⟨rfl, parts.2.1⟩
  | false =>
      apply (isSuffix_iff_of_not_hasSuffix hasSuffix).mpr
      rw [if_neg Bool.false_ne_true, Nat.sub_zero, List.drop_length]
      exact ⟨rfl, fixed hasSuffix⟩

theorem exists_parts_of_isChunk (isChunk : isChunk style chunk = true)
    (fixed : style.hasSuffix = false → chunk.length = fixedSize) (nonempty : code ≠ []) :
    ∃ parts : Parts, parts.AreOf style (code ++ chunk) := by
  have metadata := isMetadata_iff.mp (isMetadata_of_isChunk isChunk)
  refine ⟨⟨code, metadataOfChunk style chunk,
    chunk.drop (chunk.length - style.trailerSize)⟩, ?_⟩
  constructor
  · exact congrArg (code ++ ·) (List.take_append_drop _ _).symm
  · exact nonempty
  · exact metadata.1
  · exact metadata.2
  · exact isSuffix_of_isChunk isChunk fixed

/-- Nothing is cut off, or the code has the layout of the style. -/
theorem split_whole_or_areOf (style : Style) (code : Bytes) :
    split style code = .whole code ∨ ∃ parts : Parts, parts.AreOf style code := by
  rcases split_cases style code with
    whole | ⟨execution, chunk, number, joined, nonempty, isChunk, fixed, _⟩
  · exact .inl whole
  · rw [joined]
    exact .inr (exists_parts_of_isChunk isChunk fixed nonempty)

/-- The split tells the parts, because the suffix has the same length in all code of the
style. -/
theorem areOf_unique {parts other : Parts} (are : parts.AreOf style code)
    (otherAre : other.AreOf style code) : other = parts := by
  have same := (split_of_areOf otherAre).symm.trans (split_of_areOf are)
  injection same with execution chunk _
  have length :=
    (length_of_isSuffix otherAre.suffix).trans (length_of_isSuffix are.suffix).symm
  rcases List.append_inj' (Option.some.inj chunk) length with ⟨metadata, suffix⟩
  cases parts
  cases other
  cases execution
  cases metadata
  cases suffix
  rfl

/-! ## Both ends of code -/

/-- Metadata is found at the end of code exactly if the code has the layout of the
style: other code, then metadata that the style decodes to its end, then the suffix for
the size of the metadata. The code has that layout in one way only, and the parts are
what it is split into. Other code is left whole. -/
theorem split_finds_layout (style : Style) (code : Bytes) :
    ((split style code).chunk.isSome = true ↔ ∃ parts : Parts, parts.AreOf style code) ∧
      (∀ parts : Parts, parts.AreOf style code →
        split style code =
            ⟨parts.execution, some (parts.metadata ++ parts.suffix), parts.number style⟩ ∧
          ∀ other : Parts, other.AreOf style code → other = parts) ∧
      ((¬ ∃ parts : Parts, parts.AreOf style code) →
        split style code = ⟨code, none, 0⟩) := by
  have cases := split_whole_or_areOf style code
  refine ⟨⟨?_, ?_⟩, ?_, ?_⟩
  · intro found
    apply cases.resolve_left
    intro whole
    rw [whole] at found
    cases found
  · intro has
    rcases has with ⟨parts, are⟩
    rw [split_of_areOf are]
    rfl
  · intro parts are
    exact ⟨split_of_areOf are, fun other otherAre => areOf_unique are otherAre⟩
  · intro none
    exact cases.resolve_right none

/-! The metadata of a compiler version, behind one byte of code and before another one. -/

def versionOfCompiler : Bytes := [0xA1, 0x64, 0x73, 0x6F, 0x6C, 0x63, 0x43, 0, 8, 15]

theorem versionOfCompiler_split :
    Parts.AreOf .solidity (0xFE :: versionOfCompiler ++ [0, 10])
      ⟨[0xFE], versionOfCompiler, [0, 10]⟩ ∧
      split .solidity (0xFE :: versionOfCompiler ++ [0, 10]) =
        ⟨[0xFE], some (versionOfCompiler ++ [0, 10]), 10⟩ := by
  have are : Parts.AreOf .solidity (0xFE :: versionOfCompiler ++ [0, 10])
      ⟨[0xFE], versionOfCompiler, [0, 10]⟩ :=
    ⟨rfl, nofun, nofun, by decide +kernel,
      (isSuffix_iff_of_hasSuffix rfl).mpr (by decide)⟩
  exact ⟨are, ((split_finds_layout .solidity _).2.1 _ are).1⟩

/-- At the start of code a chunk of some size is found exactly if the first bytes of the
code, so many, are a chunk. So no chunk goes on where a shorter one has ended, and what
follows a chunk makes no difference. -/
theorem leading_chunk_is_prefix (style : Style) :
    (∀ code size, leadingChunkSize? style code = some size ↔
      size ≤ code.length ∧ isChunk style (code.take size) = true) ∧
    (∀ chunk more, isChunk style chunk = true → isChunk style (chunk ++ more) = true →
      more = []) ∧
    ∀ code size, leadingChunkSize? style code = some size →
      ∀ more, leadingChunkSize? style (code.take size ++ more) = some size := by
  have found : ∀ chunk more, isChunk style chunk = true →
      leadingChunkSize? style (chunk ++ more) = some chunk.length := by
    intro chunk more isChunk
    apply leadingChunkSize?_eq_some_iff.mpr
    rw [List.length_append, List.take_left]
    exact ⟨Nat.le_add_right _ _, isChunk⟩
  refine ⟨fun code size => leadingChunkSize?_eq_some_iff, ?_, ?_⟩
  · intro chunk more isChunk longer
    have whole := found (chunk ++ more) [] longer
    rw [List.append_nil, found chunk more isChunk, List.length_append] at whole
    exact List.eq_nil_of_length_eq_zero (Nat.add_eq_left.mp (Option.some.inj whole).symm)
  · intro code size leads more
    rcases leadingChunkSize?_eq_some_iff.mp leads with ⟨fits, isChunk⟩
    have length := found (code.take size) more isChunk
    rw [List.length_take_of_le fits] at length
    exact length

theorem versionOfCompiler_leads :
    isChunk .solidity (versionOfCompiler ++ [0, 10]) = true ∧
      leadingChunkSize? .solidity (versionOfCompiler ++ [0, 10] ++ [0xFE]) = some 12 ∧
      isChunk .solidity (versionOfCompiler ++ [0, 10] ++ [0xFE]) = false := by
  have isChunk : isChunk .solidity (versionOfCompiler ++ [0, 10]) = true := by
    decide +kernel
  have leading := leading_chunk_is_prefix .solidity
  refine ⟨isChunk, (leading.1 _ _).mpr ⟨by decide, isChunk⟩,
    Bool.eq_false_iff.mpr fun longer => ?_⟩
  exact absurd (leading.2.1 _ _ isChunk longer) nofun

end ContractCode.Auxdata
