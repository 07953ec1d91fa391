import ContractCode.Auxdata.Chunk
import ContractCode.CallProtection
import ContractCode.ConstructorArguments
import ContractCode.Immutable
import ContractCode.Library
import ContractCode.MatchResult

/-!
Comparing compiled code with the code on chain. The compiled code is filled with what
was deployed, and then compared three times: as it is, with its metadata chunks replaced
by those on chain, and with the metadata at the end of both codes left out. The first
comparison that holds makes the result.
-/

namespace ContractCode

inductive CodeType where
  | creation | runtime
deriving Repr, DecidableEq

def CodeType.name : CodeType → String
  | .creation => "creation"
  | .runtime => "runtime"

namespace Matching

/-! ## Messages -/

def noMatchMessage : String := "bytecodes do not match"

def strippedMetadataMessage : String := "matched after stripping metadata"

def invalidArgumentsMessage : String :=
  "trailing bytes cannot be decoded as constructor arguments"

/-! ## Comparisons of codes -/

/-- Constructor arguments follow the creation code on chain, so only its start is
compared. Empty code is never the same. -/
def agrees (codeType : CodeType) (code onChain : Bytes) : Bool :=
  !code.isEmpty &&
    match codeType with
    | .creation => code.isPrefixOf onChain
    | .runtime => code == onChain

/-- The codes agree without the metadata at their ends. Creation code on chain ends with
constructor arguments and has nothing cut off. -/
def agreesWithoutMetadata (style : Auxdata.Style) (codeType : CodeType)
    (code onChain : Bytes) : Bool :=
  let code := Auxdata.executionCode style code
  match codeType with
  | .creation => agrees .creation code onChain
  | .runtime => agrees .runtime code (Auxdata.executionCode style onChain)

def directStatus (style : Auxdata.Style) (compiled : Bytes) : MatchStatus :=
  if Auxdata.hasContentHash style compiled then .exactMatch else .equivalent

/-! ## Codes alone -/

/-- Compares two codes of which nothing else is known. -/
def matchSimple (style : Auxdata.Style) (codeType : CodeType) (onChain compiled : Bytes) :
    MatchResult :=
  if agrees codeType compiled onChain then
    .plain (directStatus style compiled) .heuristic none
  else if agreesWithoutMetadata style codeType compiled onChain then
    .plain .equivalent .heuristic (some strippedMetadataMessage)
  else .plain .different .heuristic (some noMatchMessage)

/-! ## Metadata from the chain -/

structure NumberedChunk where
  id : String
  chunk : PlacedChunk
deriving Repr, DecidableEq

def numberedChunks (chunks : PlacedChunks) : List NumberedChunk :=
  chunks.entries.map fun entry => ⟨entry.1, entry.2⟩

/-- The chunks from the highest place to the lowest; equal places keep their order. What
happens to one does not move those that come after it in this order. -/
def chunksDescending (chunks : PlacedChunks) : List NumberedChunk :=
  (numberedChunks chunks).mergeSort fun left right =>
    right.chunk.offset ≤ left.chunk.offset

def checkChunks (chunks : PlacedChunks) (codeLength : Nat) : Except MatchError Unit :=
  (numberedChunks chunks).forM fun numbered =>
    numbered.chunk.span.checkedWithin .cborAuxdata numbered.id codeLength

structure Substitution where
  offset : Nat
  id : String
  value : Bytes
deriving Repr, DecidableEq

def chunkOnChain? (style : Auxdata.Style) (onChain : Bytes) (span : Span) :
    Option Bytes :=
  (onChain.slice? span).filter (Auxdata.isChunk style)

/-- Code in which some chunks were substituted, the last substitution first. -/
structure Substituted where
  code : Bytes
  applied : List Substitution
deriving Repr, DecidableEq

/-- Puts the chunk on chain in the place of one chunk, or removes the chunk if there is
none. -/
def substituteChunk (style : Auxdata.Style) (onChain : Bytes) (state : Substituted)
    (numbered : NumberedChunk) : Except MatchError Substituted := do
  let span := numbered.chunk.span
  span.checkedWithin .cborAuxdata numbered.id state.code.length
  match chunkOnChain? style onChain span with
  | some value =>
    if state.code.slice span = value then return state
    else
      return ⟨state.code.overwrite span.start value,
        ⟨span.start, numbered.id, value⟩ :: state.applied⟩
  | none =>
    return ⟨state.code.remove span, ⟨span.start, numbered.id, []⟩ :: state.applied⟩

def recordSubstitution (populated : PopulatedCode) (substitution : Substitution) :
    PopulatedCode :=
  populated
    |>.log (.cborAuxdata substitution.offset substitution.id)
    |>.record (·.addCborAuxdata substitution.id substitution.value)

/-- Puts the chunks on chain in the place of the chunks of the code. None if that
changes nothing. -/
def substituteChunks (style : Auxdata.Style) (onChain : Bytes) (chunks : PlacedChunks)
    (populated : PopulatedCode) : Except MatchError (Option PopulatedCode) := do
  let state ← (chunksDescending chunks).foldlM (substituteChunk style onChain)
      ⟨populated.code, []⟩
  if state.applied.isEmpty then return none
  else
    return some
      (state.applied.foldl recordSubstitution { populated with code := state.code })

/-! ## Comparisons with artifacts -/

structure Input where
  style : Auxdata.Style
  codeType : CodeType
  onChain : Bytes
  compiled : CompiledCode
  chunks : PlacedChunks
  abi : Option Json

def argumentsMessage (extracted : ConstructorArguments.Extracted) : Option String :=
  if extracted.arguments.isSome && !extracted.isValidated then
    some invalidArgumentsMessage else none

def recordArguments (populated : PopulatedCode)
    (extracted : ConstructorArguments.Extracted) :
    PopulatedCode :=
  match extracted.arguments with
  | some arguments =>
    if extracted.isValidated then
      { populated with
        transformations := populated.transformations ++ extracted.transformations
        values := populated.values.addConstructorArguments arguments }
    else populated
  | none => populated

/-- The result for code that agrees; the arguments behind creation code are looked at. -/
def resultFor (input : Input) (status : MatchStatus) (populated : PopulatedCode) :
    Except MatchError MatchResult :=
  match input.codeType with
  | .runtime => .ok (.ofPopulated status populated none)
  | .creation => do
    let extracted ← ConstructorArguments.extract populated.code input.onChain input.abi
    return .ofPopulated status (recordArguments populated extracted)
      (argumentsMessage extracted)

/-- Compares the codes as they are. -/
def matchDirect (input : Input) (populated : PopulatedCode) :
    Except MatchError (Option MatchResult) :=
  if agrees input.codeType populated.code input.onChain then do
    let result ← resultFor input (directStatus input.style input.compiled.code) populated
    return some result
  else .ok none

/-- Compares the codes with the metadata on chain in both. -/
def matchSubstituted (input : Input) (populated : PopulatedCode) :
    Except MatchError (Option MatchResult) := do
  match ← substituteChunks input.style input.onChain input.chunks populated with
  | none => return none
  | some substituted =>
    if agrees input.codeType substituted.code input.onChain then
      let result ← resultFor input .equivalent substituted
      return some result
    else return none

/-- Compares the codes without the metadata at their ends. -/
def matchStripped (input : Input) (populated : PopulatedCode) : Option MatchResult :=
  if agreesWithoutMetadata input.style input.codeType populated.code input.onChain then
    some (.ofPopulated .equivalent populated (some strippedMetadataMessage))
  else none

/-- The result of the first comparison that holds. -/
def compare (input : Input) (populated : PopulatedCode) :
    Except MatchError MatchResult := do
  checkChunks input.chunks populated.code.length
  match ← matchDirect input populated with
  | some result => return result
  | none =>
    match ← matchSubstituted input populated with
    | some result => return result
    | none =>
      match matchStripped input populated with
      | some result => return result
      | none => return .plain .different .artifacts (some noMatchMessage)

/-! ## Filling the code -/

/-- Fills runtime code: the call protection, then the immutables, then the libraries. -/
def populateRuntime (style : Auxdata.Style) (onChain : Bytes) (compiled : CompiledCode)
    (artifacts : CodeArtifacts) : Except MatchError PopulatedCode := do
  let populated := CallProtection.resolve onChain (.ofCode compiled.code)
  let populated ← Immutable.resolve style onChain artifacts.immutableReferences populated
  Library.resolve compiled.placeholders onChain artifacts.linkReferences populated

/-- Fills creation code, which has libraries only. -/
def populateCreation (onChain : Bytes) (compiled : CompiledCode)
    (artifacts : CodeArtifacts) :
    Except MatchError PopulatedCode :=
  Library.resolve compiled.placeholders onChain artifacts.linkReferences
    (.ofCode compiled.code)

def matchRuntime (style : Auxdata.Style) (onChain : Bytes) (compiled : CompiledCode)
    (artifacts : CodeArtifacts) : Except MatchError MatchResult := do
  let populated ← populateRuntime style onChain compiled artifacts
  compare ⟨style, .runtime, onChain, compiled, artifacts.metadataChunks, none⟩ populated

def matchCreation (style : Auxdata.Style) (onChain : Bytes) (compiled : CompiledCode)
    (artifacts : CodeArtifacts) (compilation : CompilationArtifacts) :
    Except MatchError MatchResult := do
  let populated ← populateCreation onChain compiled artifacts
  compare ⟨style, .creation, onChain, compiled, artifacts.metadataChunks,
    compilation.abi⟩ populated

def matchCode (style : Auxdata.Style) (codeType : CodeType) (onChain : Bytes)
    (compiled : CompiledCode) (artifacts : CodeArtifacts)
    (compilation : CompilationArtifacts) :
    Except MatchError MatchResult :=
  match codeType with
  | .creation => matchCreation style onChain compiled artifacts compilation
  | .runtime => matchRuntime style onChain compiled artifacts

end Matching

end ContractCode
