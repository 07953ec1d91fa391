import ContractCode.Proofs.ChunkHeads
import ContractCode.Proofs.Outcome
import Mathlib.Data.List.Basic

/-! # Exact matches and their metadata

An exact match tells that the metadata on chain is that of the compiled code, byte by
byte, except where a byte gives way to a reference that the log has: any byte to an
immutable, and a zero byte or a placeholder to a library. Nothing else can change
metadata that has a content hash: the call protection fills zero bytes, and the metadata
starts with another byte. Metadata of Vyper has no content hash, and Vyper code is never
an exact match.
-/

namespace ContractCode.Matching

variable {style : Auxdata.Style} {onChain : Bytes} {compiled : CompiledCode}
  {artifacts : CodeArtifacts} {populated : PopulatedCode} {input : Input}
  {result : MatchResult}

/-- An exact match is found by the first comparison, for code with a content hash. -/
theorem Outcome.of_exactMatch (outcome : Outcome input populated result)
    (exact : result.status = .exactMatch) :
    agrees input.codeType populated.code input.onChain = true ∧
      Auxdata.hasContentHash input.style input.compiled.code = true := by
  cases outcome with
  | direct same found =>
      refine ⟨same, ?_⟩
      rw [(reports_of_resultFor found).2.1, directStatus] at exact
      split at exact
      · rename_i hashed
        exact hashed
      · cases exact
  | substituted differs replaced same found =>
      rw [(reports_of_resultFor found).2.1] at exact
      cases exact
  | stripped differs same => cases exact
  | different differs => cases exact

/-- The place of an address that is not known yet is no part of the metadata at the end
of the code. -/
theorem not_covers_of_split {code chunk : Bytes} {index : Nat}
    (found : (Auxdata.split style code).chunk = some chunk)
    (awaits : CallProtection.Awaits code) (inChunk : code.length - chunk.length ≤ index) :
    ¬ CallProtection.addressSpan.Covers index := by
  intro covers
  rcases Auxdata.chunk_of_split found with ⟨isChunk, shorter, cut⟩
  have place : code.slice ⟨code.length - chunk.length, chunk.length⟩ = chunk := by
    rw [Bytes.slice, ← cut, List.take_length]
  rw [← place] at isChunk
  have before := Nat.lt_of_le_of_lt inChunk covers.2
  exact absurd (awaits.stop_le_of_isChunk isChunk) (Nat.not_le.mpr before)

/-! ## Bytes that give way

A value of an immutable takes the place of any bytes, but the address of a library goes
only to zero bytes or to a placeholder. Fillings may overlap, so the bytes that a
library finds are not those of the compiled code, unless nothing gave way before. -/

/-- The compiled byte at the index gives way to a reference in the log: to one of an
immutable, or to one of a library, which finds a zero byte there or starts at a
placeholder. -/
inductive GivesWayAt (compiled : CompiledCode) (artifacts : CodeArtifacts)
    (log : List Transformation) (index : Nat) : Prop
  | immutable {id : String} {reference : Reference}
      (listed : Immutable.Lists artifacts.immutableReferences id reference)
      (covers : reference.span.Covers index)
      (logged : .replaceImmutable reference.span.start id ∈ log)
  | library {name : String} {reference : Reference}
      (listed : Library.Lists artifacts.linkReferences name reference)
      (covers : reference.span.Covers index)
      (logged : .library reference.span.start name ∈ log)
      (free : compiled.code[index]? = some 0 ∨
        CompiledCode.placeholderAt? compiled.placeholders reference.span.start ≠ none)

/-- The code has the compiled byte at the index, or that byte gives way. -/
def KeepsAt (compiled : CompiledCode) (artifacts : CodeArtifacts) (index : Nat)
    (populated : PopulatedCode) : Prop :=
  populated.code[index]? = compiled.code[index]? ∨
    GivesWayAt compiled artifacts populated.transformations index

section GivingWay

variable {index : Nat} {next : PopulatedCode}

theorem GivesWayAt.mono {log longer : List Transformation}
    (kept : ∀ entry ∈ log, entry ∈ longer)
    (gives : GivesWayAt compiled artifacts log index) :
    GivesWayAt compiled artifacts longer index := by
  cases gives with
  | immutable listed covers logged => exact .immutable listed covers (kept _ logged)
  | library listed covers logged free =>
      exact .library listed covers (kept _ logged) free

namespace KeepsAt

theorem fill {filling : Filling} (keeps : KeepsAt compiled artifacts index populated)
    (present : filling.span.Within onChain.length)
    (reaches : filling.span.start ≤ populated.code.length)
    (gives : filling.span.Covers index → GivesWayAt compiled artifacts
      (populated.fill onChain filling).transformations index) :
    KeepsAt compiled artifacts index (populated.fill onChain filling) := by
  by_cases covers : filling.span.Covers index
  · exact .inr (gives covers)
  · rw [KeepsAt, PopulatedCode.getElem?_fill_code_of_not_covers present reaches covers]
    apply keeps.imp_right
    exact GivesWayAt.mono fun entry member => List.mem_append_left _ member

theorem callProtectionStep
    (outside : CallProtection.Awaits compiled.code →
      ¬ CallProtection.addressSpan.Covers index)
    (step : CallProtection.Step onChain (.ofCode compiled.code) next) :
    KeepsAt compiled artifacts index next := by
  have unchanged : KeepsAt compiled artifacts index (.ofCode compiled.code) := .inl rfl
  cases step with
  | kept same => exact unchanged
  | filled awaits pushes differs =>
      apply unchanged.fill pushes.2 awaits.1.2.start_le
      intro covers
      exact absurd covers (outside awaits)

theorem immutableStep {target : Immutable.Target}
    (listed : Immutable.Lists artifacts.immutableReferences target.id target.reference)
    (keeps : KeepsAt compiled artifacts index populated)
    (step : Immutable.Step .solidity onChain populated target next) :
    KeepsAt compiled artifacts index next := by
  cases step with
  | missing absent => exact keeps
  | kept present notAtEnd inside same => exact keeps
  | appended present atEnd =>
      exact absurd rfl (Immutable.appends_eq_true_iff.mp atEnd).1
  | replaced present notAtEnd inside differs =>
      apply keeps.fill present inside.start_le
      intro covers
      exact .immutable listed covers (List.mem_append_right _ List.mem_cons_self)

theorem libraryStep {target : Library.Target}
    (listed : Library.Lists artifacts.linkReferences target.name target.reference)
    (keeps : KeepsAt compiled artifacts index populated)
    (step : Library.Step compiled.placeholders onChain populated target next) :
    KeepsAt compiled artifacts index next := by
  cases step with
  | missing inside absent => exact keeps
  | kept inside present same => exact keeps
  | linked inside present links =>
      apply keeps.fill present inside.start_le
      intro covers
      have logged : Transformation.library target.reference.span.start target.name ∈
          (populated.fill onChain (Library.linking target)).transformations :=
        List.mem_append_right _ List.mem_cons_self
      by_cases unmarked : CompiledCode.placeholderAt? compiled.placeholders
          target.reference.span.start = none
      · have zero : populated.code[index]? = some 0 :=
          Bytes.getElem?_of_allZero_slice
            (Library.allZero_of_decision_eq_link links unmarked) covers
            (Nat.lt_of_lt_of_le covers.2 inside)
        -- The byte is zero by now; if it was not so from the start, it has given way.
        rcases keeps with same | gives
        · exact .library listed covers logged (.inl (same.symm.trans zero))
        · exact gives.mono fun entry member => List.mem_append_left _ member
      · exact .library listed covers logged (.inr unmarked)

/-- Filling Solidity code changes a byte only if it gives way, outside of an address that
the code awaits. -/
theorem of_populate {codeType : CodeType}
    (filled : populate .solidity codeType onChain compiled artifacts = .ok populated)
    (outside : CallProtection.Awaits compiled.code →
      ¬ CallProtection.addressSpan.Covers index) :
    KeepsAt compiled artifacts index populated := by
  apply populate_preserves (KeepsAt compiled artifacts index) (.inl rfl) _ _ _ filled
  · intro next step
    exact callProtectionStep outside step
  · intro state target next listed keeps step
    exact keeps.immutableStep listed step
  · intro state target next listed keeps step
    exact keeps.libraryStep listed step

end KeepsAt

end GivingWay

/-! ## Exact matches -/

/-- Where filling ends with the code on chain, that ends with the metadata of the compiled
code, apart from bytes that give way. -/
theorem deployed_or_givesWay {codeType : CodeType} {chunk : Bytes}
    (filled : populate .solidity codeType onChain compiled artifacts = .ok populated)
    (code : populated.code = onChain) (length : onChain.length = compiled.code.length)
    (found : (Auxdata.split .solidity compiled.code).chunk = some chunk) (offset : Nat) :
    (onChain.drop (onChain.length - chunk.length))[offset]? = chunk[offset]? ∨
      GivesWayAt compiled artifacts populated.transformations
        (onChain.length - chunk.length + offset) := by
  have keeps : KeepsAt compiled artifacts (onChain.length - chunk.length + offset)
      populated := by
    apply KeepsAt.of_populate filled
    intro awaits
    exact not_covers_of_split found awaits (by omega)
  have atOffset : compiled.code[onChain.length - chunk.length + offset]? =
      chunk[offset]? := by
    rw [length, ← List.getElem?_drop, ← (Auxdata.chunk_of_split found).2.2]
  rw [KeepsAt, code, atOffset] at keeps
  rw [List.getElem?_drop]
  exact keeps

/-- After an exact match the code on chain ends with the metadata of the compiled code,
apart from bytes that give way to a reference in the log. -/
theorem metadata_of_exactMatch
    (matched : matchRuntime style onChain compiled artifacts = .ok result)
    (exact : result.status = .exactMatch) :
    ∃ chunk deployed,
      (Auxdata.split style compiled.code).chunk = some chunk ∧
      onChain.length = compiled.code.length ∧
      deployed <:+ onChain ∧ deployed.length = chunk.length ∧
      ∀ offset < chunk.length,
        deployed[offset]? = chunk[offset]? ∨
          GivesWayAt compiled artifacts result.transformations
            (onChain.length - chunk.length + offset) := by
  have matched : matchCode style .runtime onChain compiled artifacts {} =
      .ok result := matched
  rcases matchCode_eq_ok_iff.mp matched with ⟨populated, filled, compared⟩
  have outcome := outcome_of_compare compared
  have isMatch : result.status ≠ .different := by
    rw [exact]
    decide
  rcases outcome.of_exactMatch exact with ⟨same, hashed⟩
  have code : populated.code = onChain := (agrees_eq_true_iff.mp same).2
  rcases Auxdata.chunk_of_hasContentHash hashed with ⟨solidity, chunk, _, _, found, _, _⟩
  cases solidity
  have length : onChain.length = compiled.code.length := by
    rw [← code]
    exact length_of_populate filled
  have shorter : chunk.length < compiled.code.length := (Auxdata.chunk_of_split found).2.1
  refine ⟨chunk, onChain.drop (onChain.length - chunk.length), found, length,
    List.drop_suffix _ _, ?_, ?_⟩
  · rw [List.length_drop]
    omega
  · intro offset _
    apply (deployed_or_givesWay filled code length found offset).imp_right
    exact GivesWayAt.mono fun entry => (outcome.reports isMatch).mem_log

/-! A library reference inside the hash: the zero bytes that it finds there are part of
the metadata. -/

def hashedCode (hash : Bytes) : Bytes :=
  [0x60, 0xa1, 0x64, 0x69, 0x70, 0x66, 0x73, 0x54] ++ hash ++ [0x00, 0x1b]

def zeroHash : CompiledCode := .ofBytes (hashedCode (List.replicate 20 0))

def otherHash : Bytes := hashedCode (List.replicate 20 1)

def hashRanges : CodeArtifacts where
  linkReferences :=
    Dictionary.empty.insert "a.sol" (Dictionary.empty.insert "L" [⟨8, 20⟩])

def hashResult : MatchResult :=
  .ofPopulated .exactMatch
    { code := otherHash
      transformations := [.library 8 "a.sol:L"]
      values :=
      { libraries := Dictionary.empty.insert "a.sol:L" (List.replicate 20 1) } } none

theorem matchRuntime_zeroHash :
    matchRuntime .solidity otherHash zeroHash hashRanges = .ok hashResult := by
  decide +kernel

theorem metadata_of_hashResult :
    matchRuntime .solidity otherHash zeroHash hashRanges = .ok hashResult ∧
      hashResult.status = .exactMatch ∧
      ∃ chunk deployed,
        (Auxdata.split .solidity zeroHash.code).chunk = some chunk ∧
        otherHash.length = zeroHash.code.length ∧
        deployed <:+ otherHash ∧ deployed.length = chunk.length ∧
        ∀ offset < chunk.length,
          deployed[offset]? = chunk[offset]? ∨
            GivesWayAt zeroHash hashRanges hashResult.transformations
              (otherHash.length - chunk.length + offset) :=
  ⟨matchRuntime_zeroHash, rfl, metadata_of_exactMatch matchRuntime_zeroHash rfl⟩

/-- An exact match alone does not tell that the metadata is the same. -/
theorem not_suffix_of_exactMatch :
    ¬ ∀ (style : Auxdata.Style) (onChain : Bytes) (compiled : CompiledCode)
        (artifacts : CodeArtifacts) (result : MatchResult),
      matchRuntime style onChain compiled artifacts = .ok result →
        result.status = .exactMatch →
        ∃ chunk, (Auxdata.split style compiled.code).chunk = some chunk ∧
          chunk <:+ onChain := by
  intro all
  rcases all _ _ _ _ _ matchRuntime_zeroHash rfl with ⟨chunk, found, ends⟩
  have cut : (Auxdata.split .solidity zeroHash.code).chunk =
      some (zeroHash.code.drop 1) := by
    decide +kernel
  cases found.symm.trans cut
  exact absurd ends (by decide +kernel)

/-! An immutable inside the hash takes the place of bytes that are not zero. -/

example :
    (matchRuntime .solidity (hashedCode (List.replicate 20 1))
      (.ofBytes (hashedCode (List.replicate 20 2)))
      { immutableReferences := Dictionary.empty.insert "7" [⟨8, 20⟩] }).map (·.status) =
      .ok .exactMatch := by decide +kernel

/-! ## Vyper

Every metadata of Vyper that the decoder accepts lacks a content hash, in whatever form
its heads are. -/

/-- Vyper code never has a content hash and is never an exact match, neither with
artifacts nor alone. -/
theorem inexact_of_vyper (vyper : style ≠ .solidity) :
    (∀ code, Auxdata.hasContentHash style code = false) ∧
    (∀ codeType onChain compiled artifacts compilation result,
      matchCode style codeType onChain compiled artifacts compilation = .ok result →
        result.status ≠ .exactMatch) ∧
    (∀ codeType onChain compiled,
      (matchSimple style codeType onChain compiled).status ≠ .exactMatch) := by
  refine ⟨Auxdata.hasContentHash_eq_false vyper, ?_, ?_⟩
  · intro codeType onChain compiled artifacts compilation result matched exact
    rcases matchCode_eq_ok_iff.mp matched with ⟨populated, _, compared⟩
    have hashed := ((outcome_of_compare compared).of_exactMatch exact).2
    exact vyper (Auxdata.chunk_of_hasContentHash hashed).1
  · intro codeType onChain compiled
    rw [matchSimple, directStatus, Auxdata.hasContentHash_eq_false vyper]
    split
    · decide
    · split <;> decide

/-! The key of a content hash stands in the hash in front of the layout, where it is no
key. -/

def hashedLayout : Bytes :=
  [0x85, 0x58, 32] ++ hashedCode (List.replicate 22 7) ++ [23, 0x80, 0] ++
    [0xa1, 0x65, 0x76, 0x79, 0x70, 0x65, 0x72, 0x83, 0, 4, 1]

def hashedLayoutCode : Bytes := 0x5f :: hashedLayout ++ [0, 51]

def hashedLayoutResult : MatchResult :=
  .ofPopulated .equivalent (.ofCode hashedLayoutCode) none

theorem inexact_of_hashedLayout :
    Auxdata.Style.vyper ≠ .solidity ∧
      (Auxdata.split .vyper hashedLayoutCode).chunk = some (hashedLayout ++ [0, 51]) ∧
      Auxdata.hasContentHash .vyper hashedLayoutCode = false ∧
      matchCode .vyper .runtime hashedLayoutCode (.ofBytes hashedLayoutCode) {} {} =
        .ok hashedLayoutResult ∧
      hashedLayoutResult.status ≠ .exactMatch ∧
      (matchSimple .vyper .runtime hashedLayoutCode hashedLayoutCode).status ≠
        .exactMatch := by
  have vyper : Auxdata.Style.vyper ≠ .solidity := by decide
  rcases inexact_of_vyper vyper with ⟨unhashed, inexact, inexactAlone⟩
  have matched :
      matchCode .vyper .runtime hashedLayoutCode (.ofBytes hashedLayoutCode) {} {} =
      .ok hashedLayoutResult := by decide +kernel
  exact ⟨vyper, by decide +kernel, unhashed _, matched, inexact _ _ _ _ _ _ matched,
    inexactAlone _ _ _⟩

end ContractCode.Matching
