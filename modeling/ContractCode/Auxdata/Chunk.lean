import ContractCode.Auxdata.Style

/-!
Chunks of metadata. A chunk is metadata with the length suffix of its style; the
metadata fills it exactly and the suffix agrees with its size. `split` cuts a chunk off
the end of code, and `leadingChunkSize?` finds one at the start.
-/

namespace ContractCode.Auxdata

/-- The number in the last two bytes. -/
def encodedLength (code : Bytes) : Nat :=
  BigEndian.decode (code.drop (code.length - suffixSize))

def isMetadata (style : Style) (bytes : Bytes) : Bool :=
  !bytes.isEmpty && style.decodedSize? bytes == some bytes.length

/-- The bytes are metadata with the suffix of the style. -/
def isChunk (style : Style) (chunk : Bytes) : Bool :=
  if style.hasSuffix then
    decide (suffixSize ≤ chunk.length) &&
      style.chunkSize (encodedLength chunk) == chunk.length &&
      isMetadata style (chunk.take (chunk.length - suffixSize))
  else isMetadata style chunk

@[simp] theorem isChunk_nil (style : Style) : isChunk style [] = false := by
  cases style with
  | solidity | vyper | vyperBefore0310 | vyperBefore035 => rfl

/-! ## At the end of code -/

structure Split where
  execution : Bytes
  /-- The chunk after it, with its suffix. -/
  chunk : Option Bytes
  /-- The number in the suffix, the fixed size of a style without one, and nought
  without a chunk. -/
  encodedLength : Nat
deriving Repr, DecidableEq

def Split.whole (code : Bytes) : Split := ⟨code, none, 0⟩

/-- Cuts off the last `size` bytes if they are a chunk and other code is left. -/
def cutChunk (style : Style) (code : Bytes) (size encodedLength : Nat) : Split :=
  if code.length ≤ size then .whole code
  else
    let chunk := code.drop (code.length - size)
    if isChunk style chunk then
      ⟨code.take (code.length - size), some chunk, encodedLength⟩
    else .whole code

/-- Cuts the chunk off the end of the code, if there is one. -/
def split (style : Style) (code : Bytes) : Split :=
  if style.hasSuffix then
    if code.length < suffixSize then .whole code
    else cutChunk style code (style.chunkSize (encodedLength code)) (encodedLength code)
  else cutChunk style code fixedSize fixedSize

def executionCode (style : Style) (code : Bytes) : Bytes := (split style code).execution

def metadataOfChunk (style : Style) (chunk : Bytes) : Bytes :=
  chunk.take (chunk.length - style.trailerSize)

/-- The metadata at the end of the code is a map with a hash of the source metadata. -/
def hasContentHash (style : Style) (code : Bytes) : Bool :=
  match (split style code).chunk with
  | none => false
  | some chunk =>
    match SolidityAuxdata.mapKeys? (metadataOfChunk style chunk) with
    | none => false
    | some keys => keys.any fun key => SolidityAuxdata.contentHashKeys.contains key

/-! ## At the start of code -/

def leadingChunkSize? (style : Style) (code : Bytes) : Option Nat := do
  let size ← style.decodedSize? code
  let chunk ← code.slice? ⟨0, size + style.trailerSize⟩
  if isChunk style chunk then some chunk.length else none

end ContractCode.Auxdata
