import ContractCode.Auxdata.Locate
import ContractCode.Immutable
import ContractCode.Proofs.CheckedAccess
import ContractCode.Proofs.LocatedChunks

/-! # Chunks through checked access

The functions that look for metadata chunks, with every range that they take of the code
checked. They give the same results as without the checks, so no range is outside of the
code, whatever the code is.
-/

namespace ContractCode.Checked

open Auxdata (Style Split suffixSize fixedSize)

variable {style : Style} {code chunk other : Bytes}

/-! ## One chunk -/

/-- The number in a suffix of two bytes. -/
def suffixNumber (suffix : Bytes) : Checked Nat := do
  let high ← item suffix 0
  let low ← item suffix 1
  return BigEndian.decode [high, low]

def isChunk (style : Style) (chunk : Bytes) : Checked Bool :=
  if style.hasSuffix then
    if chunk.length < suffixSize then return false
    else do
      let size ← subtract chunk.length suffixSize
      let metadata ← window chunk 0 size
      let suffix ← window chunk size chunk.length
      let number ← suffixNumber suffix
      if style.chunkSize number ≠ chunk.length then return false
      else return Auxdata.isMetadata style metadata
  else return Auxdata.isMetadata style chunk

/-- The last bytes of code that is long enough have the number in them. -/
theorem suffixNumber_drop (long : suffixSize ≤ code.length) :
    suffixNumber (code.drop (code.length - suffixSize)) =
      .ok (Auxdata.encodedLength code) := by
  have length : (code.drop (code.length - suffixSize)).length = 2 := by
    rw [List.length_drop]
    exact Nat.sub_sub_self long
  rcases List.length_eq_two.mp length with ⟨high, low, digits⟩
  rw [Auxdata.encodedLength, digits]
  rfl

theorem isChunk_eq (style : Style) (chunk : Bytes) :
    isChunk style chunk = .ok (Auxdata.isChunk style chunk) := by
  rw [isChunk, Auxdata.isChunk]
  by_cases suffix : style.hasSuffix = true
  · rw [if_pos suffix, if_pos suffix]
    by_cases short : chunk.length < suffixSize
    · rw [if_pos short, decide_eq_false (Nat.not_le.mpr short)]
      rfl
    · have long : suffixSize ≤ chunk.length := Nat.not_lt.mp short
      have start : chunk.length - suffixSize ≤ chunk.length := Nat.sub_le _ _
      rw [if_neg short, bind_of_eq_ok (subtract_of_le long),
        bind_of_eq_ok (window_to start), bind_of_eq_ok (window_from start),
        bind_of_eq_ok (suffixNumber_drop long), decide_eq_true long]
      split
      · rename_i differs
        rw [beq_false_of_ne differs]
        rfl
      · rename_i same
        rw [beq_iff_eq.mpr (not_not.mp same)]
        rfl
  · rw [if_neg suffix, if_neg suffix]
    rfl

/-! ## At the end of code -/

def cutChunk (style : Style) (code : Bytes) (size encodedLength : Nat) : Checked Split :=
  if code.length ≤ size then return .whole code
  else do
    let start ← subtract code.length size
    let chunk ← window code start code.length
    if ← isChunk style chunk then
      let execution ← window code 0 start
      return ⟨execution, some chunk, encodedLength⟩
    else return .whole code

def split (style : Style) (code : Bytes) : Checked Split :=
  if style.hasSuffix then
    if code.length < suffixSize then return .whole code
    else do
      let start ← subtract code.length suffixSize
      let suffix ← window code start code.length
      let number ← suffixNumber suffix
      cutChunk style code (style.chunkSize number) number
  else cutChunk style code fixedSize fixedSize

def metadataOfChunk (style : Style) (chunk : Bytes) : Checked Bytes :=
  if style.hasSuffix then do
    let size ← subtract chunk.length suffixSize
    window chunk 0 size
  else return chunk

def hasContentHash (style : Style) (code : Bytes) : Checked Bool := do
  match (← split style code).chunk with
  | none => return false
  | some chunk =>
    let metadata ← metadataOfChunk style chunk
    match SolidityAuxdata.mapKeys? metadata with
    | none => return false
    | some keys => return keys.any fun key => SolidityAuxdata.contentHashKeys.contains key

def vyperReferences? (creationCode : Bytes) : Checked (Option ImmutableReferences) := do
  match (← split .vyper creationCode).chunk with
  | none => return none
  | some chunk =>
    let metadata ← metadataOfChunk .vyper chunk
    match VyperAuxdata.decode metadata with
    | .ok (auxdata, _) => return auxdata.layout.bind Immutable.referencesOfLayout?
    | .error _ => return none

theorem cutChunk_eq (style : Style) (code : Bytes) (size encodedLength : Nat) :
    cutChunk style code size encodedLength =
      .ok (Auxdata.cutChunk style code size encodedLength) := by
  rw [cutChunk, Auxdata.cutChunk]
  by_cases short : code.length ≤ size
  · rw [if_pos short, if_pos short]
    rfl
  · have start : code.length - size ≤ code.length := Nat.sub_le _ _
    rw [if_neg short, if_neg short,
      bind_of_eq_ok (subtract_of_le (Nat.le_of_not_le short)),
      bind_of_eq_ok (window_from start), bind_of_eq_ok (isChunk_eq style _)]
    dsimp only
    split
    · rw [bind_of_eq_ok (window_to start)]
      rfl
    · rfl

theorem split_eq (style : Style) (code : Bytes) :
    split style code = .ok (Auxdata.split style code) := by
  rw [split, Auxdata.split]
  by_cases suffix : style.hasSuffix = true
  · rw [if_pos suffix, if_pos suffix]
    by_cases short : code.length < suffixSize
    · rw [if_pos short, if_pos short]
      rfl
    · have long : suffixSize ≤ code.length := Nat.not_lt.mp short
      rw [if_neg short, if_neg short, bind_of_eq_ok (subtract_of_le long),
        bind_of_eq_ok (window_from (Nat.sub_le _ _)),
        bind_of_eq_ok (suffixNumber_drop long)]
      exact cutChunk_eq style code _ _
  · rw [if_neg suffix, if_neg suffix]
    exact cutChunk_eq style code _ _

/-- A chunk is long enough for its suffix. -/
theorem metadataOfChunk_eq (isChunk : Auxdata.isChunk style chunk = true) :
    metadataOfChunk style chunk = .ok (Auxdata.metadataOfChunk style chunk) := by
  rw [metadataOfChunk, Auxdata.metadataOfChunk, Auxdata.Style.trailerSize]
  by_cases suffix : style.hasSuffix = true
  · have long := ((Auxdata.isChunk_iff_of_suffix suffix).mp isChunk).1
    rw [if_pos suffix, if_pos suffix, bind_of_eq_ok (subtract_of_le long)]
    exact window_to (Nat.sub_le _ _)
  · rw [if_neg suffix, if_neg suffix, Nat.sub_zero, List.take_length]
    rfl

theorem hasContentHash_eq (style : Style) (code : Bytes) :
    hasContentHash style code = .ok (Auxdata.hasContentHash style code) := by
  rw [hasContentHash, bind_of_eq_ok (split_eq style code), Auxdata.hasContentHash]
  cases found : (Auxdata.split style code).chunk with
  | none => rfl
  | some chunk =>
      dsimp only
      rw [bind_of_eq_ok (metadataOfChunk_eq (Auxdata.chunk_of_split found).1)]
      cases SolidityAuxdata.mapKeys? (Auxdata.metadataOfChunk style chunk) with
      | none => rfl
      | some keys => rfl

theorem vyperReferences?_eq (code : Bytes) :
    vyperReferences? code = .ok (Immutable.vyperReferences? code) := by
  rw [vyperReferences?, bind_of_eq_ok (split_eq .vyper code), Immutable.vyperReferences?]
  cases found : (Auxdata.split .vyper code).chunk with
  | none => rfl
  | some chunk =>
      dsimp only
      rw [bind_of_eq_ok (metadataOfChunk_eq (Auxdata.chunk_of_split found).1)]
      change _ =
        Except.ok (match VyperAuxdata.decode (Auxdata.metadataOfChunk .vyper chunk) with
        | .ok (auxdata, _) => auxdata.layout.bind Immutable.referencesOfLayout?
        | .error _ => none)
      cases VyperAuxdata.decode (Auxdata.metadataOfChunk .vyper chunk) with
      | ok decoded => rfl
      | error refusal => rfl

/-! ## At the start of code -/

def leadingChunkSize? (style : Style) (code : Bytes) : Checked (Option Nat) :=
  match style.decodedSize? code with
  | none => return none
  | some size =>
    match code.slice? ⟨0, size + style.trailerSize⟩ with
    | none => return none
    | some chunk => do
      if ← isChunk style chunk then return some chunk.length else return none

theorem leadingChunkSize?_eq (style : Style) (code : Bytes) :
    leadingChunkSize? style code = .ok (Auxdata.leadingChunkSize? style code) := by
  rw [leadingChunkSize?, Auxdata.leadingChunkSize?]
  cases style.decodedSize? code with
  | none => rfl
  | some size =>
      dsimp only [Option.bind_eq_bind, Option.bind_some]
      cases code.slice? ⟨0, size + style.trailerSize⟩ with
      | none => rfl
      | some chunk =>
          dsimp only [Option.bind_some]
          rw [bind_of_eq_ok (isChunk_eq style chunk)]
          split <;> rfl

/-! ## Two compilations

A place in the code becomes a 32-bit number, so the code may not be longer than these
reach. -/

/-- The chunk that starts at `start` and covers `index`. -/
def chunkCovering? (style : Style) (code : Bytes) (index start : Nat) :
    Checked (Option PlacedChunk) := do
  let rest ← window code start code.length
  match ← leadingChunkSize? style rest with
  | none => return none
  | some size =>
    if index < start + size then
      let value ← window code start (start + size)
      let offset ← word start
      return some ⟨value, offset⟩
    else return none

def chunkAround? (style : Style) (code : Bytes) (lowest index : Nat) :
    Checked (Option PlacedChunk) :=
  (Auxdata.placesDown lowest index).findSomeM? (chunkCovering? style code index)

theorem stop_of_chunkCovering? {index start : Nat} {placed : PlacedChunk}
    (found : chunkCovering? style code index start = .ok (some placed)) :
    index < placed.span.stop := by
  rcases Run.bind_eq_ok_iff.mp found with ⟨rest, _, found⟩
  rcases Run.bind_eq_ok_iff.mp found with ⟨size?, _, found⟩
  cases size? with
  | none => cases found
  | some size =>
      dsimp only at found
      split at found
      · rename_i covers
        rcases Run.bind_eq_ok_iff.mp found with ⟨value, sliced, found⟩
        rcases Run.bind_eq_ok_iff.mp found with ⟨offset, narrowed, last⟩
        cases last
        have stop : start + value.length = start + size := length_of_window sliced
        have place : offset.toNat = start := toNat_of_word narrowed
        change index < offset.toNat + value.length
        rw [place, stop]
        exact covers
      · cases found

theorem stop_of_chunkAround? {lowest index : Nat} {placed : PlacedChunk}
    (found : chunkAround? style code lowest index = .ok (some placed)) :
    index < placed.span.stop := by
  rcases exists_of_findSomeM? found with ⟨start, covering⟩
  exact stop_of_chunkCovering? covering

def locateFrom (style : Style) (code other : Bytes) (start : Nat) :
    Checked (List PlacedChunk) :=
  match _difference : Auxdata.firstDifference? code other start with
  | none => .ok []
  | some index =>
    match _around : chunkAround? style code start index with
    | .error stop => .error stop
    | .ok none => .error (.failure (.auxdataNotFound index))
    | .ok (some placed) => do
      let following ← locateFrom style code other placed.span.stop
      return placed :: following
termination_by code.length - start
decreasing_by
  have difference := Auxdata.firstDifference?_bounds _difference
  have around := stop_of_chunkAround? _around
  omega

def locate (style : Style) (code other : Bytes) : Checked PlacedChunks :=
  if code.length ≠ other.length then
    .error (.failure (.codeLengthMismatch code.length other.length))
  else do
    let chunks ← locateFrom style code other 0
    return Auxdata.numbered chunks

theorem chunkCovering?_eq {index start : Nat} (within : start ≤ code.length)
    (small : start < UInt32.size) :
    chunkCovering? style code index start =
      .ok ((Auxdata.chunkCovering? style code index start).map
        (Auxdata.placedChunk code)) := by
  rw [chunkCovering?, Auxdata.chunkCovering?, bind_of_eq_ok (window_from within),
    bind_of_eq_ok (leadingChunkSize?_eq style _)]
  cases found : Auxdata.leadingChunkSize? style (code.drop start) with
  | none => rfl
  | some size =>
      dsimp only
      split
      · have fits : size ≤ code.length - start := by
          rw [← List.length_drop]
          exact (Auxdata.leadingChunkSize?_eq_some_iff.mp found).1
        have spanWithin : (Span.mk start size).Within code.length := by
          simp only [Span.Within, Span.stop]
          omega
        have sliced : window code start (start + size) = .ok (code.slice ⟨start, size⟩) :=
          window_span spanWithin
        rw [bind_of_eq_ok sliced, bind_of_eq_ok (word_of_lt small)]
        rfl
      · rfl

theorem chunkAround?_eq {lowest index : Nat} (small : code.length ≤ UInt32.size)
    (inside : index < code.length) :
    chunkAround? style code lowest index =
      .ok ((Auxdata.chunkAround? style code lowest index).map
        (Auxdata.placedChunk code)) := by
  rw [chunkAround?, Auxdata.chunkAround?, List.map_findSome?]
  apply findSomeM?_eq_ok
  intro start member
  have near := (Auxdata.mem_placesDown member).2
  exact chunkCovering?_eq (by omega) (by omega)

/-- The search without the proofs that it ends. -/
theorem locateFrom_step (style : Style) (code other : Bytes) (start : Nat) :
    locateFrom style code other start =
      match Auxdata.firstDifference? code other start with
      | none => .ok []
      | some index =>
        match chunkAround? style code start index with
        | .error stop => .error stop
        | .ok none => .error (.failure (.auxdataNotFound index))
        | .ok (some placed) =>
          (locateFrom style code other placed.span.stop).map fun chunks =>
            placed :: chunks := by
  rw [locateFrom]
  split
  · rename_i none
    rw [none]
  · rename_i difference
    rw [difference]
    dsimp only
    split
    · rename_i stopped
      rw [stopped]
    · rename_i missing
      rw [missing]
    · rename_i placed around
      rw [around]
      dsimp only
      cases locateFrom style code other placed.span.stop with
      | error stop => rfl
      | ok chunks => rfl

theorem locateFrom_eq (small : code.length ≤ UInt32.size) (start : Nat) :
    locateFrom style code other start =
      returned ((Auxdata.locateFrom style code other start).map
        fun spans => spans.map (Auxdata.placedChunk code)) := by
  -- A chunk reaches beyond its difference, so less of the code is left after it.
  induction left : code.length - start using Nat.strongRecOn generalizing start with
  | _ left induction =>
      rw [locateFrom_step, Auxdata.locateFrom_eq]
      cases found : Auxdata.firstDifference? code other start with
      | none => rfl
      | some index =>
          have inside := Auxdata.firstDifference?_bounds found
          dsimp only
          rw [chunkAround?_eq small inside.2]
          cases around : Auxdata.chunkAround? style code start index with
          | none => rfl
          | some span =>
              have last := Auxdata.chunkAround?_eq_some around
              have reaches := last.covers.2
              dsimp only [Option.map_some]
              rw [last.chunk.span_placedChunk small, induction _ (by omega) span.stop rfl]
              cases Auxdata.locateFrom style code other span.stop with
              | ok spans => rfl
              | error error => rfl

theorem locate_eq (small : code.length ≤ UInt32.size) :
    locate style code other = returned (Auxdata.locate style code other) := by
  rw [locate, Auxdata.locate]
  split
  · rfl
  · rw [locateFrom_eq small]
    cases Auxdata.locateFrom style code other 0 with
    | ok spans => rfl
    | error error => rfl

end ContractCode.Checked
