import ContractCode.Auxdata.Chunk
import ContractCode.MatchError

/-!
Finding the metadata chunks of a contract that was compiled twice with different
metadata. Wherever the two codes differ there has to be a chunk around. It is looked for
from the difference backwards, not farther than to the end of the chunk before.
-/

namespace ContractCode.Auxdata

def firstDifference? (code other : Bytes) (start : Nat) : Option Nat :=
  (((code.zip other).drop start).findIdx? fun pair => pair.1 ≠ pair.2).map (start + ·)

/-- The span of a chunk that starts at `start` and covers `index`. -/
def chunkCovering? (style : Style) (code : Bytes) (index start : Nat) : Option Span :=
  match leadingChunkSize? style (code.drop start) with
  | some size => if index < start + size then some ⟨start, size⟩ else none
  | none => none

def placesDown (lowest index : Nat) : List Nat :=
  (List.range (index + 1 - lowest)).map (index - ·)

/-- The chunk around `index` that starts last, but not before `lowest`. -/
def chunkAround? (style : Style) (code : Bytes) (lowest index : Nat) : Option Span :=
  (placesDown lowest index).findSome? (chunkCovering? style code index)

theorem firstDifference?_bounds {code other : Bytes} {start index : Nat}
    (found : firstDifference? code other start = some index) :
    start ≤ index ∧ index < code.length := by
  simp only [firstDifference?, Option.map_eq_some_iff] at found
  rcases found with ⟨distance, first, rfl⟩
  rcases List.findIdx?_eq_some_iff_getElem.mp first with ⟨inside, -⟩
  simp only [List.length_drop, List.length_zip] at inside
  omega

theorem chunkCovering?_bounds {style : Style} {code : Bytes} {index start : Nat}
    {span : Span}
    (found : chunkCovering? style code index start = some span) :
    span.start = start ∧ index < span.stop := by
  simp only [chunkCovering?] at found
  split at found
  · split at found
    · rename_i covers
      simp only [Option.some.injEq] at found
      subst found
      exact ⟨rfl, covers⟩
    · simp at found
  · simp at found

theorem mem_placesDown {lowest index place : Nat}
    (member : place ∈ placesDown lowest index) :
    lowest ≤ place ∧ place ≤ index := by
  simp only [placesDown, List.mem_map, List.mem_range] at member
  rcases member with ⟨distance, near, rfl⟩
  omega

theorem chunkAround?_bounds {style : Style} {code : Bytes} {lowest index : Nat}
    {span : Span}
    (found : chunkAround? style code lowest index = some span) :
    lowest ≤ span.start ∧ span.start ≤ index ∧ index < span.stop := by
  rcases List.exists_of_findSome?_eq_some found with ⟨place, member, covering⟩
  rcases chunkCovering?_bounds covering with ⟨rfl, covers⟩
  rcases mem_placesDown member with ⟨above, below⟩
  exact ⟨above, below, covers⟩

def locateFrom (style : Style) (code other : Bytes) (start : Nat) :
    Except MatchError (List Span) :=
  match _difference : firstDifference? code other start with
  | none => .ok []
  | some index =>
    match _around : chunkAround? style code start index with
    | none => .error (.auxdataNotFound index)
    | some span => do
      let following ← locateFrom style code other span.stop
      return span :: following
termination_by code.length - start
decreasing_by
  have difference := firstDifference?_bounds _difference
  have around := chunkAround?_bounds _around
  omega

def placedChunk (code : Bytes) (span : Span) : PlacedChunk :=
  ⟨code.slice span, UInt32.ofNat span.start⟩

def numbered (chunks : List PlacedChunk) : PlacedChunks :=
  .ofList <| chunks.zipIdx.map fun (chunk, index) => (toString (index + 1), chunk)

/-- The chunks of a code at which another compilation of the same contract differs from
it. -/
def locate (style : Style) (code other : Bytes) : Except MatchError PlacedChunks :=
  if code.length ≠ other.length then .error (.codeLengthMismatch code.length other.length)
  else do
    let spans ← locateFrom style code other 0
    return numbered (spans.map (placedChunk code))

end ContractCode.Auxdata
