import ContractCode.Matching
import ContractCode.Proofs.CheckedChunks
import ContractCode.Proofs.Filling

/-! # Comparisons through checked access

The resolvers and the comparisons, with every range that they read, overwrite or take
out checked. A resolver changes the code while the references still speak of the code
before, so a range is looked at again whenever it is used. None of them is ever at
fault: each function ends with what it returns without the checks.
-/

namespace ContractCode.Checked

open Auxdata (Style)

variable {style : Style} {onChain code : Bytes} {populated : PopulatedCode}

/-! ## Call protection -/

section CallProtection

open CallProtection (addressSpan pushAddress)

def pushesAddress (code : Bytes) : Checked Bool :=
  if addressSpan.stop ≤ code.length then do
    let first ← item code 0
    return first == pushAddress
  else return false

def resolveProtection (onChain : Bytes) (populated : PopulatedCode) :
    Checked PopulatedCode := do
  if ← pushesAddress populated.code then
    if ← pushesAddress onChain then
      let placeholder ← window populated.code addressSpan.start addressSpan.stop
      if Bytes.allZero placeholder then
        let address ← window onChain addressSpan.start addressSpan.stop
        let current ← window populated.code addressSpan.start addressSpan.stop
        if current = address then return populated
        else
          let code ← copyInto populated.code addressSpan.start addressSpan.stop address
          return { populated with code }
            |>.log (.callProtection addressSpan.start)
            |>.record (·.addCallProtection address)
      else return populated
    else return populated
  else return populated

theorem pushesAddress_eq (code : Bytes) :
    pushesAddress code = .ok (decide (CallProtection.Pushes code)) := by
  rw [pushesAddress]
  split
  · rename_i long
    cases code with
    | nil => exact absurd long (by decide)
    | cons first rest =>
        have here : item (first :: rest) 0 = .ok first := rfl
        have pushes_iff : CallProtection.Pushes (first :: rest) ↔
            first = pushAddress := by
          rw [CallProtection.Pushes, List.head?_cons, Option.some.injEq]
          exact and_iff_left long
        rw [bind_of_eq_ok here, decide_eq_decide.mpr pushes_iff]
        rfl
  · rename_i short
    rw [decide_eq_false fun pushes => short pushes.2]
    rfl

theorem resolveProtection_eq (onChain : Bytes) (populated : PopulatedCode) :
    resolveProtection onChain populated =
      .ok (CallProtection.resolve onChain populated) := by
  have address (code : Bytes) : CallProtection.address? code =
      if CallProtection.Pushes code then some (code.slice addressSpan) else none := by
    split
    · rename_i pushes
      exact CallProtection.address?_eq_some_iff.mpr ⟨pushes, rfl⟩
    · rename_i other
      apply Option.eq_none_iff_forall_not_mem.mpr
      intro address found
      exact other (CallProtection.address?_eq_some_iff.mp found).1
  rw [resolveProtection, CallProtection.resolve, bind_of_eq_ok (pushesAddress_eq _),
    address, address]
  by_cases codePushes : CallProtection.Pushes populated.code
  · rw [if_pos (decide_eq_true codePushes), if_pos codePushes,
      bind_of_eq_ok (pushesAddress_eq _)]
    by_cases chainPushes : CallProtection.Pushes onChain
    · have inCode := window_span codePushes.2
      rw [if_pos (decide_eq_true chainPushes), if_pos chainPushes, bind_of_eq_ok inCode]
      dsimp only
      by_cases zero : (populated.code.slice addressSpan).allZero = true
      · rw [if_pos zero, bind_of_eq_ok (window_span chainPushes.2), bind_of_eq_ok inCode]
        by_cases same : populated.code.slice addressSpan = onChain.slice addressSpan
        · rw [if_pos same, if_neg fun fills => fills.2 same]
          rfl
        · rw [if_neg same, if_pos ⟨zero, same⟩, bind_of_eq_ok
            (copyInto_span codePushes.2 (Bytes.length_slice chainPushes.2))]
          rfl
      · rw [if_neg zero, if_neg fun fills => zero fills.1]
        rfl
    · rw [if_neg (by simpa using chainPushes), if_neg chainPushes]
      rfl
  · rw [if_neg (by simpa using codePushes), if_neg codePushes]
    rfl

end CallProtection

/-- A span that was checked is read and written without a fault. -/
theorem bind_checkedWithin {α : Type} {span : Span} {kind : ReferenceKind} {id : String}
    {codeLength : Nat} {next : Unit → Checked α} {pureNext : Unit → Except MatchError α}
    (same : span.Within codeLength → next () = returned (pureNext ())) :
    returned (span.checkedWithin kind id codeLength) >>= next =
      returned (span.checkedWithin kind id codeLength >>= pureNext) := by
  rw [Span.checkedWithin]
  split
  · rename_i within
    exact same within
  · rfl

/-! ## Immutables -/

section Immutable

open Immutable (Target appends orderedTargets)

def resolveImmutable (style : Style) (onChain : Bytes) (populated : PopulatedCode)
    (target : Target) :
    Checked PopulatedCode :=
  let span := target.reference.span
  match onChain.slice? span with
  | none => return populated
  | some value =>
    if appends style populated.code span then
      return populated.append value
        |>.log (.insertImmutable span.start target.id)
        |>.record (·.addImmutable target.id value)
    else do
      returned (span.checkedWithin .immutable target.id populated.code.length)
      let current ← window populated.code span.start span.stop
      if current = value then return populated
      else
        let code ← copyInto populated.code span.start span.stop value
        return { populated with code }
          |>.log (.replaceImmutable span.start target.id)
          |>.record (·.addImmutable target.id value)

def resolveImmutables (style : Style) (onChain : Bytes) (references : ImmutableReferences)
    (populated : PopulatedCode) : Checked PopulatedCode :=
  (orderedTargets references).foldlM (resolveImmutable style onChain) populated

theorem resolveImmutable_eq (populated : PopulatedCode) (target : Target) :
    resolveImmutable style onChain populated target =
      returned (Immutable.resolveTarget style onChain populated target) := by
  rw [resolveImmutable, Immutable.resolveTarget]
  cases found : onChain.slice? target.reference.span with
  | none => rfl
  | some value =>
      have size := Bytes.length_of_slice? found
      dsimp only
      split
      · rfl
      · apply bind_checkedWithin
        intro within
        rw [bind_of_eq_ok (window_span within)]
        split
        · rfl
        · rw [bind_of_eq_ok (copyInto_span within size)]
          rfl

theorem resolveImmutables_eq (style : Style) (onChain : Bytes)
    (references : ImmutableReferences)
    (populated : PopulatedCode) :
    resolveImmutables style onChain references populated =
      returned (Immutable.resolve style onChain references populated) :=
  foldlM_eq_returned resolveImmutable_eq _ _

end Immutable

/-! ## Libraries -/

section Library

open Library (Target Decision hashDigits namePlaceholder targets)

def hashPlaceholder (name : String) : Checked String := do
  let digits ← window (Hex.encode (Keccak.digest (Utf8.bytes name))) 0 hashDigits
  return String.ofList (['_', '_', '$'] ++ digits ++ ['$', '_', '_'])

def isPlaceholderOf (placeholder name : String) : Checked Bool := do
  let hashed ← hashPlaceholder name
  return placeholder == hashed || placeholder == namePlaceholder name

def decisionFor (placeholders : List Placeholder) (target : Target)
    (current address : Bytes) :
    Checked Decision :=
  match CompiledCode.placeholderAt? placeholders target.reference.span.start with
  | some placeholder => do
    if ← isPlaceholderOf placeholder.text target.name then return .link
    else return .refuse placeholder.text
  | none =>
    if current = address then return .keep
    else if current.allZero then return .link
    else return .refuse (String.ofList (Hex.encode current))

def resolveLibrary (placeholders : List Placeholder) (onChain : Bytes)
    (populated : PopulatedCode)
    (target : Target) : Checked PopulatedCode := do
  let span := target.reference.span
  returned (span.checkedWithin .library target.name populated.code.length)
  match onChain.slice? span with
  | none => return populated
  | some address =>
    let current ← window populated.code span.start span.stop
    match ← decisionFor placeholders target current address with
    | .keep => return populated
    | .link =>
      let code ← copyInto populated.code span.start span.stop address
      return { populated with code }
        |>.log (.library span.start target.name)
        |>.record (·.addLibrary target.name address)
    | .refuse placeholder =>
      throw (.failure (.invalidLibraryPlaceholder target.name span.start placeholder))

def resolveLibraries (placeholders : List Placeholder) (onChain : Bytes)
    (references : LinkReferences)
    (populated : PopulatedCode) : Checked PopulatedCode :=
  (targets references).foldlM (resolveLibrary placeholders onChain) populated

/-- A digest has more digits than a placeholder shows. -/
theorem hashPlaceholder_eq (name : String) :
    hashPlaceholder name = .ok (Library.hashPlaceholder name) := by
  have enough : hashDigits ≤ (Hex.encode (Keccak.digest (Utf8.bytes name))).length := by
    rw [Hex.length_encode, Keccak.length_digest]
    decide
  rw [hashPlaceholder, bind_of_eq_ok (window_to enough)]
  rfl

theorem isPlaceholderOf_eq (placeholder name : String) :
    isPlaceholderOf placeholder name =
      .ok (Library.isPlaceholderOf placeholder name) := by
  rw [isPlaceholderOf, bind_of_eq_ok (hashPlaceholder_eq name)]
  rfl

theorem decisionFor_eq (placeholders : List Placeholder) (target : Target)
    (current address : Bytes) :
    decisionFor placeholders target current address =
      .ok (Library.decisionFor placeholders target current address) := by
  rw [decisionFor, Library.decisionFor]
  cases CompiledCode.placeholderAt? placeholders target.reference.span.start with
  | some placeholder =>
      dsimp only
      rw [bind_of_eq_ok (isPlaceholderOf_eq _ _)]
      split <;> rfl
  | none =>
      dsimp only
      split
      · rfl
      · split <;> rfl

theorem resolveLibrary_eq (placeholders : List Placeholder) (populated : PopulatedCode)
    (target : Target) :
    resolveLibrary placeholders onChain populated target =
      returned (Library.resolveTarget placeholders onChain populated target) := by
  rw [resolveLibrary, Library.resolveTarget]
  apply bind_checkedWithin
  intro within
  cases found : onChain.slice? target.reference.span with
  | none => rfl
  | some address =>
      have size := Bytes.length_of_slice? found
      dsimp only
      rw [bind_of_eq_ok (window_span within), bind_of_eq_ok (decisionFor_eq _ _ _ _)]
      cases Library.decisionFor placeholders target
        (populated.code.slice target.reference.span) address with
      | keep => rfl
      | link =>
          dsimp only
          rw [bind_of_eq_ok (copyInto_span within size)]
          rfl
      | refuse placeholder => rfl

theorem resolveLibraries_eq (placeholders : List Placeholder) (onChain : Bytes)
    (references : LinkReferences) (populated : PopulatedCode) :
    resolveLibraries placeholders onChain references populated =
      returned (Library.resolve placeholders onChain references populated) :=
  foldlM_eq_returned (resolveLibrary_eq placeholders) _ _

end Library

/-! ## Metadata from the chain -/

section Matching

open Matching

def chunkOnChain? (style : Style) (onChain : Bytes) (span : Span) :
    Checked (Option Bytes) :=
  match onChain.slice? span with
  | none => return none
  | some value => do
    if ← isChunk style value then return some value else return none

def substituteChunk (style : Style) (onChain : Bytes) (state : Substituted)
    (numbered : NumberedChunk) :
    Checked Substituted := do
  let span := numbered.chunk.span
  returned (span.checkedWithin .cborAuxdata numbered.id state.code.length)
  match ← chunkOnChain? style onChain span with
  | some value =>
    let current ← window state.code span.start span.stop
    if current = value then return state
    else
      let code ← copyInto state.code span.start span.stop value
      return ⟨code, ⟨span.start, numbered.id, value⟩ :: state.applied⟩
  | none =>
    let code ← drain state.code span.start span.stop
    return ⟨code, ⟨span.start, numbered.id, []⟩ :: state.applied⟩

def substituteChunks (style : Style) (onChain : Bytes) (chunks : PlacedChunks)
    (populated : PopulatedCode) : Checked (Option PopulatedCode) := do
  let state ← (chunksDescending chunks).foldlM (substituteChunk style onChain)
      ⟨populated.code, []⟩
  if state.applied.isEmpty then return none
  else
    return some
      (state.applied.foldl recordSubstitution { populated with code := state.code })

theorem chunkOnChain?_eq (style : Style) (onChain : Bytes) (span : Span) :
    chunkOnChain? style onChain span =
      .ok (Matching.chunkOnChain? style onChain span) := by
  rw [chunkOnChain?, Matching.chunkOnChain?]
  cases onChain.slice? span with
  | none => rfl
  | some value =>
      dsimp only [Option.filter]
      rw [bind_of_eq_ok (isChunk_eq style value)]
      split <;> rfl

theorem substituteChunk_eq (state : Substituted) (numbered : NumberedChunk) :
    substituteChunk style onChain state numbered =
      returned (Matching.substituteChunk style onChain state numbered) := by
  rw [substituteChunk, Matching.substituteChunk]
  apply bind_checkedWithin
  intro within
  rw [bind_of_eq_ok (chunkOnChain?_eq style onChain numbered.chunk.span)]
  cases found : Matching.chunkOnChain? style onChain numbered.chunk.span with
  | none =>
      dsimp only
      rw [bind_of_eq_ok (drain_span within)]
      rfl
  | some value =>
      have size : value.length = numbered.chunk.span.length :=
        Bytes.length_of_slice? (Option.filter_eq_some_iff.mp found).1
      dsimp only
      rw [bind_of_eq_ok (window_span within)]
      split
      · rfl
      · rw [bind_of_eq_ok (copyInto_span within size)]
        rfl

theorem substituteChunks_eq (style : Style) (onChain : Bytes) (chunks : PlacedChunks)
    (populated : PopulatedCode) :
    substituteChunks style onChain chunks populated =
      returned (Matching.substituteChunks style onChain chunks populated) := by
  rw [substituteChunks, Matching.substituteChunks, returned_bind,
    foldlM_eq_returned substituteChunk_eq]
  congr 1
  funext state
  split <;> rfl

/-! ## Comparisons

The arguments behind creation code are asked for and may be missing, so they need no
check. -/

def directStatus (style : Style) (compiled : Bytes) : Checked MatchStatus := do
  if ← hasContentHash style compiled then return .exactMatch else return .equivalent

def agreesWithoutMetadata (style : Style) (codeType : CodeType) (code onChain : Bytes) :
    Checked Bool := do
  let code ← split style code
  match codeType with
  | .creation => return agrees .creation code.execution onChain
  | .runtime =>
    let onChain ← split style onChain
    return agrees .runtime code.execution onChain.execution

def matchSimple (style : Style) (codeType : CodeType) (onChain compiled : Bytes) :
    Checked MatchResult := do
  if agrees codeType compiled onChain then
    let status ← directStatus style compiled
    return .plain status .heuristic none
  else if ← agreesWithoutMetadata style codeType compiled onChain then
    return .plain .equivalent .heuristic (some strippedMetadataMessage)
  else return .plain .different .heuristic (some noMatchMessage)

def matchDirect (input : Input) (populated : PopulatedCode) :
    Checked (Option MatchResult) := do
  if agrees input.codeType populated.code input.onChain then
    let status ← directStatus input.style input.compiled.code
    let result ← returned (resultFor input status populated)
    return some result
  else return none

def matchSubstituted (input : Input) (populated : PopulatedCode) :
    Checked (Option MatchResult) := do
  match ← substituteChunks input.style input.onChain input.chunks populated with
  | none => return none
  | some substituted =>
    if agrees input.codeType substituted.code input.onChain then
      let result ← returned (resultFor input .equivalent substituted)
      return some result
    else return none

def matchStripped (input : Input) (populated : PopulatedCode) :
    Checked (Option MatchResult) := do
  if ← agreesWithoutMetadata input.style input.codeType populated.code input.onChain then
    return some (.ofPopulated .equivalent populated (some strippedMetadataMessage))
  else return none

def compare (input : Input) (populated : PopulatedCode) : Checked MatchResult := do
  returned (checkChunks input.chunks populated.code.length)
  match ← matchDirect input populated with
  | some result => return result
  | none =>
    match ← matchSubstituted input populated with
    | some result => return result
    | none =>
      match ← matchStripped input populated with
      | some result => return result
      | none => return .plain .different .artifacts (some noMatchMessage)

def matchRuntime (style : Style) (onChain : Bytes) (compiled : CompiledCode)
    (artifacts : CodeArtifacts) : Checked MatchResult := do
  let populated ← resolveProtection onChain (.ofCode compiled.code)
  let populated ← resolveImmutables style onChain artifacts.immutableReferences populated
  let populated ← resolveLibraries compiled.placeholders onChain
    artifacts.linkReferences populated
  compare ⟨style, .runtime, onChain, compiled, artifacts.metadataChunks, none⟩ populated

def matchCreation (style : Style) (onChain : Bytes) (compiled : CompiledCode)
    (artifacts : CodeArtifacts) (compilation : CompilationArtifacts) :
    Checked MatchResult := do
  let populated ←
    resolveLibraries compiled.placeholders onChain artifacts.linkReferences
      (.ofCode compiled.code)
  compare ⟨style, .creation, onChain, compiled, artifacts.metadataChunks,
    compilation.abi⟩ populated

def matchCode (style : Style) (codeType : CodeType) (onChain : Bytes)
    (compiled : CompiledCode)
    (artifacts : CodeArtifacts) (compilation : CompilationArtifacts) :
    Checked MatchResult :=
  match codeType with
  | .creation => matchCreation style onChain compiled artifacts compilation
  | .runtime => matchRuntime style onChain compiled artifacts

theorem directStatus_eq (style : Style) (compiled : Bytes) :
    directStatus style compiled = .ok (Matching.directStatus style compiled) := by
  rw [directStatus, Matching.directStatus,
    bind_of_eq_ok (hasContentHash_eq style compiled)]
  split <;> rfl

theorem agreesWithoutMetadata_eq (style : Style) (codeType : CodeType)
    (code onChain : Bytes) :
    agreesWithoutMetadata style codeType code onChain =
      .ok (Matching.agreesWithoutMetadata style codeType code onChain) := by
  rw [agreesWithoutMetadata, bind_of_eq_ok (split_eq style code)]
  cases codeType with
  | creation => rfl
  | runtime =>
      dsimp only
      rw [bind_of_eq_ok (split_eq style onChain)]
      rfl

theorem matchSimple_eq (style : Style) (codeType : CodeType) (onChain compiled : Bytes) :
    matchSimple style codeType onChain compiled =
      .ok (Matching.matchSimple style codeType onChain compiled) := by
  rw [matchSimple, Matching.matchSimple]
  split
  · rw [bind_of_eq_ok (directStatus_eq style compiled)]
    rfl
  · rw [bind_of_eq_ok (agreesWithoutMetadata_eq style codeType compiled onChain)]
    split <;> rfl

theorem matchDirect_eq (input : Input) (populated : PopulatedCode) :
    matchDirect input populated = returned (Matching.matchDirect input populated) := by
  rw [matchDirect, Matching.matchDirect]
  split
  · rw [bind_of_eq_ok (directStatus_eq _ _), returned_bind]
    rfl
  · rfl

theorem matchSubstituted_eq (input : Input) (populated : PopulatedCode) :
    matchSubstituted input populated =
      returned (Matching.matchSubstituted input populated) := by
  rw [matchSubstituted, Matching.matchSubstituted, returned_bind, substituteChunks_eq]
  congr 1
  funext substituted
  cases substituted with
  | none => rfl
  | some final =>
      dsimp only
      split
      · rw [returned_bind]
        rfl
      · rfl

theorem matchStripped_eq (input : Input) (populated : PopulatedCode) :
    matchStripped input populated = .ok (Matching.matchStripped input populated) := by
  rw [matchStripped, Matching.matchStripped,
    bind_of_eq_ok (agreesWithoutMetadata_eq _ _ _ _)]
  split <;> rfl

theorem compare_eq (input : Input) (populated : PopulatedCode) :
    compare input populated = returned (Matching.compare input populated) := by
  rw [compare, Matching.compare, returned_bind]
  congr 1
  funext _
  rw [returned_bind, matchDirect_eq]
  congr 1
  funext direct
  cases direct with
  | some result => rfl
  | none =>
      dsimp only
      rw [returned_bind, matchSubstituted_eq]
      congr 1
      funext substituted
      cases substituted with
      | some result => rfl
      | none =>
          dsimp only
          rw [bind_of_eq_ok (matchStripped_eq input populated)]
          cases Matching.matchStripped input populated with
          | some result => rfl
          | none => rfl

theorem matchRuntime_eq (style : Style) (onChain : Bytes) (compiled : CompiledCode)
    (artifacts : CodeArtifacts) :
    matchRuntime style onChain compiled artifacts =
      returned (Matching.matchRuntime style onChain compiled artifacts) := by
  rw [matchRuntime, Matching.matchRuntime, Matching.populateRuntime,
    bind_of_eq_ok (resolveProtection_eq _ _), returned_bind, returned_bind,
    resolveImmutables_eq]
  simp only [resolveLibraries_eq, compare_eq, bind_assoc]

theorem matchCreation_eq (style : Style) (onChain : Bytes) (compiled : CompiledCode)
    (artifacts : CodeArtifacts) (compilation : CompilationArtifacts) :
    matchCreation style onChain compiled artifacts compilation =
      returned (Matching.matchCreation style onChain compiled artifacts compilation) := by
  rw [matchCreation, Matching.matchCreation, Matching.populateCreation, returned_bind,
    resolveLibraries_eq]
  simp only [compare_eq]

theorem matchCode_eq (style : Style) (codeType : CodeType) (onChain : Bytes)
    (compiled : CompiledCode)
    (artifacts : CodeArtifacts) (compilation : CompilationArtifacts) :
    matchCode style codeType onChain compiled artifacts compilation =
      returned
        (Matching.matchCode style codeType onChain compiled artifacts compilation) := by
  cases codeType with
  | creation => exact matchCreation_eq style onChain compiled artifacts compilation
  | runtime => exact matchRuntime_eq style onChain compiled artifacts

end Matching

/-! ## No faults -/

/-- With every access checked the functions end as without the checks: with a value, or
with an error that they return. That is never a fault, whatever the codes and the
artifacts are. Only places that are found in code have to fit into 32 bits. -/
theorem ends_without_fault :
    (∀ style codeType onChain compiled artifacts compilation,
      matchCode style codeType onChain compiled artifacts compilation =
        returned
          (Matching.matchCode style codeType onChain compiled artifacts compilation)) ∧
    (∀ style codeType onChain compiled,
      matchSimple style codeType onChain compiled =
        .ok (Matching.matchSimple style codeType onChain compiled)) ∧
    (∀ style code,
      isChunk style code = .ok (Auxdata.isChunk style code) ∧
      split style code = .ok (Auxdata.split style code) ∧
      hasContentHash style code = .ok (Auxdata.hasContentHash style code) ∧
      leadingChunkSize? style code = .ok (Auxdata.leadingChunkSize? style code)) ∧
    (∀ code, vyperReferences? code = .ok (Immutable.vyperReferences? code)) ∧
    (∀ style code other, code.length ≤ UInt32.size →
      locate style code other = returned (Auxdata.locate style code other)) ∧
    ∀ {α : Type} (result : Except MatchError α) (fault : Fault),
      returned result ≠ .error (.fault fault) := by
  refine ⟨matchCode_eq, matchSimple_eq, ?_, vyperReferences?_eq, ?_, returned_ne_fault⟩
  · intro style code
    exact ⟨isChunk_eq style code, split_eq style code, hasContentHash_eq style code,
      leadingChunkSize?_eq style code⟩
  · intro style code other small
    exact locate_eq small

/-- What is left of code after a chunk was taken out may be too short for the next one,
and then there is an error. -/
example :
    [⟨"2", ⟨[2, 3, 4], 1⟩⟩, ⟨"1", ⟨[1, 2, 3], 0⟩⟩].foldlM (substituteChunk .solidity [])
        ⟨[1, 2, 3, 4], []⟩ =
      .error (.failure (.referenceOutOfBounds .cborAuxdata "1" ⟨0, 3⟩ 1)) := by
  decide +kernel

end ContractCode.Checked
