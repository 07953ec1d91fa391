import ContractCode.Bytes.Hex
import ContractCode.Json.Record

/-!
What a compiler tells about code: where library addresses and immutables go, and where
metadata chunks are. Places are 32-bit numbers, as in the compiler's own documents.
-/

namespace ContractCode

/-! ## References -/

/-- A range of bytes that is filled in when code is deployed. -/
structure Reference where
  start : UInt32
  length : UInt32
deriving Repr, DecidableEq

namespace Reference

def span (reference : Reference) : Span := ⟨reference.start.toNat, reference.length.toNat⟩

def toJson (reference : Reference) : Json :=
  .object [("start", .ofWord reference.start), ("length", .ofWord reference.length)]

def ofJson? (json : Json) : Option Reference := do
  match ← json.fields? ["start", "length"] with
  | [some start, some length] =>
    let start ← start.word?
    let length ← length.word?
    return ⟨start, length⟩
  | _ => none

@[simp] theorem ofJson?_toJson (reference : Reference) :
    ofJson? reference.toJson = some reference := by
  simp [ofJson?, toJson, List.lookup_cons]

end Reference

/-- The references of each library, by file and name. -/
abbrev LinkReferences := Dictionary (Dictionary (List Reference))

/-- The references of each immutable, by the number of its declaration. -/
abbrev ImmutableReferences := Dictionary (List Reference)

/-! ## Metadata chunks -/

structure PlacedChunk where
  value : Bytes
  offset : UInt32
deriving Repr, DecidableEq

namespace PlacedChunk

def span (chunk : PlacedChunk) : Span := ⟨chunk.offset.toNat, chunk.value.length⟩

def toJson (chunk : PlacedChunk) : Json :=
  .object [("value", .text (Hex.render chunk.value)), ("offset", .ofWord chunk.offset)]

def ofJson? (json : Json) : Option PlacedChunk := do
  match ← json.fields? ["value", "offset"] with
  | [some value, some offset] =>
    let value ← value.text?.bind Hex.parse?
    let offset ← offset.word?
    return ⟨value, offset⟩
  | _ => none

@[simp] theorem ofJson?_toJson (chunk : PlacedChunk) :
    ofJson? chunk.toJson = some chunk := by
  simp [ofJson?, toJson, List.lookup_cons, Hex.parse?_render]

end PlacedChunk

abbrev PlacedChunks := Dictionary PlacedChunk

/-! ## Artifacts -/

/-- What the compiler tells about creation code or about runtime code. -/
structure CodeArtifacts where
  linkReferences : LinkReferences := .empty
  immutableReferences : ImmutableReferences := .empty
  metadataChunks : PlacedChunks := .empty
deriving Repr, DecidableEq

namespace CodeArtifacts

def toJson (artifacts : CodeArtifacts) : Json :=
  .object [
    ("linkReferences",
      .ofDictionary (.ofDictionary (.ofList Reference.toJson)) artifacts.linkReferences),
    ("immutableReferences",
      .ofDictionary (.ofList Reference.toJson) artifacts.immutableReferences),
    ("cborAuxdata", .ofDictionary PlacedChunk.toJson artifacts.metadataChunks)]

/-- Every missing part is empty. -/
def ofJson? (json : Json) : Option CodeArtifacts := do
  match ← json.fields? ["linkReferences", "immutableReferences", "cborAuxdata"] with
  | [links, immutables, chunks] =>
    let links ← Json.defaulted? .empty
      (Json.dictionary? (Json.dictionary? (Json.list? Reference.ofJson?))) links
    let immutables ← Json.defaulted? .empty
      (Json.dictionary? (Json.list? Reference.ofJson?)) immutables
    let chunks ← Json.defaulted? .empty (Json.dictionary? PlacedChunk.ofJson?) chunks
    return ⟨links, immutables, chunks⟩
  | _ => none

theorem ofJson?_toJson (artifacts : CodeArtifacts) :
    ofJson? artifacts.toJson = some artifacts := by
  have references := Json.list?_ofList Reference.ofJson?_toJson
  have links := Json.dictionary?_ofDictionary (Json.dictionary?_ofDictionary references)
    artifacts.linkReferences
  have immutables :=
    Json.dictionary?_ofDictionary references artifacts.immutableReferences
  have chunks :=
    Json.dictionary?_ofDictionary PlacedChunk.ofJson?_toJson artifacts.metadataChunks
  simp [ofJson?, toJson, List.lookup_cons, links, immutables, chunks]

end CodeArtifacts

structure CompilationArtifacts where
  abi : Option Json := none
deriving Repr

namespace CompilationArtifacts

def toJson (artifacts : CompilationArtifacts) : Json :=
  .object [("abi", artifacts.abi.getD .null)]

/-- A missing document and null both stand for none. -/
def ofJson? (json : Json) : Option CompilationArtifacts := do
  match ← json.fields? ["abi"] with
  | [abi] =>
    let abi ← Json.optional? some abi
    return ⟨abi⟩
  | _ => none

end CompilationArtifacts

end ContractCode
