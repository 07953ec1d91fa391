import ContractCode.Auxdata.Locate
import ContractCode.Proofs.Following
import Mathlib.Data.List.Nodup

/-! # Located chunks

The search goes from difference to difference and takes the last chunk around each.
`Located` is a run of it. A run leaves no difference behind that is outside of its
chunks, and since every chunk reaches beyond the difference that it was found for, a run
has no more chunks than the code has bytes.
-/

namespace ContractCode.Auxdata

variable {style : Style} {code other : Bytes} {start lowest index stop : Nat}
  {span : Span}
  {spans : List Span}

/-! ## Differences -/

/-- The codes differ at the index, and not between `start` and the index. -/
structure FirstDifference (code other : Bytes) (start index : Nat) : Prop where
  reached : start ≤ index
  differs : code[index]? ≠ other[index]?
  first : ∀ earlier, start ≤ earlier → earlier < index → code[earlier]? = other[earlier]?

theorem getElem_drop_zip {distance : Nat}
    (inside : distance < ((code.zip other).drop start).length) :
    code[start + distance]? = some ((code.zip other).drop start)[distance].1 ∧
      other[start + distance]? = some ((code.zip other).drop start)[distance].2 := by
  have fits := inside
  simp only [List.length_drop, List.length_zip] at fits
  rw [List.getElem_drop, List.getElem_zip]
  exact ⟨List.getElem?_eq_getElem (by omega), List.getElem?_eq_getElem (by omega)⟩

/-- Two bytes of the codes are the same if the test of the search says so. -/
theorem getElem?_eq_iff_not_test {distance : Nat}
    (inside : distance < ((code.zip other).drop start).length) :
    code[start + distance]? = other[start + distance]? ↔
      ¬ decide (((code.zip other).drop start)[distance].1 ≠
        ((code.zip other).drop start)[distance].2) = true := by
  rw [(getElem_drop_zip inside).1, (getElem_drop_zip inside).2]
  simp

/-- From `start` on, the bytes of both codes are those that the search looks at. -/
theorem distance_lt_or_eq (same : code.length = other.length) (distance : Nat) :
    distance < ((code.zip other).drop start).length ∨
      code[start + distance]? = other[start + distance]? := by
  simp only [List.length_drop, List.length_zip]
  rcases Nat.lt_or_ge (start + distance) code.length with inside | beyond
  · exact .inl (by omega)
  · right
    rw [List.getElem?_eq_none beyond, List.getElem?_eq_none (same ▸ beyond)]

theorem firstDifference?_eq_none_iff (same : code.length = other.length) :
    firstDifference? code other start = none ↔
      ∀ index, start ≤ index → code[index]? = other[index]? := by
  rw [firstDifference?, Option.map_eq_none_iff, List.findIdx?_eq_none_iff]
  constructor
  · intro none index reached
    have place : start + (index - start) = index := Nat.add_sub_cancel' reached
    rcases distance_lt_or_eq same (index - start) with inside | equal
    · rw [← place, getElem?_eq_iff_not_test inside, Bool.not_eq_true]
      exact none _ (List.getElem_mem inside)
    · exact place ▸ equal
  · intro equal pair member
    rcases List.mem_iff_getElem.mp member with ⟨distance, inside, rfl⟩
    rw [← Bool.not_eq_true]
    exact (getElem?_eq_iff_not_test inside).mp (equal _ (Nat.le_add_right _ _))

theorem firstDifference?_eq_some_iff (same : code.length = other.length) :
    firstDifference? code other start = some index ↔
      FirstDifference code other start index := by
  rw [firstDifference?, Option.map_eq_some_iff]
  constructor
  · rintro ⟨distance, found, rfl⟩
    rcases List.findIdx?_eq_some_iff_getElem.mp found with ⟨inside, test, before⟩
    refine ⟨Nat.le_add_right _ _, ?_, ?_⟩
    · exact fun equal => (getElem?_eq_iff_not_test inside).mp equal test
    · intro earlier reached near
      have place : start + (earlier - start) = earlier := Nat.add_sub_cancel' reached
      rw [← place, getElem?_eq_iff_not_test (by omega)]
      exact before _ (by omega)
  · rintro ⟨reached, differs, first⟩
    have place : start + (index - start) = index := Nat.add_sub_cancel' reached
    refine ⟨index - start, ?_, place⟩
    have inside : index - start < ((code.zip other).drop start).length := by
      apply (distance_lt_or_eq same (index - start)).resolve_right
      rw [place]
      exact differs
    apply List.findIdx?_eq_some_iff_getElem.mpr ⟨inside, ?_, ?_⟩
    · rw [← place, ne_eq, getElem?_eq_iff_not_test inside, not_not] at differs
      exact differs
    · intro distance before
      apply (getElem?_eq_iff_not_test (Nat.lt_trans before inside)).mp
      exact first _ (Nat.le_add_right _ _) (by omega)

/-! ## Chunks around a difference -/

/-- The span of the code is a chunk. -/
def IsChunkAt (style : Style) (code : Bytes) (span : Span) : Prop :=
  span.Within code.length ∧ isChunk style (code.slice span) = true

/-- Of the chunks that cover the index and do not start before `lowest`, the one that
starts last. -/
structure LastChunkAround (style : Style) (code : Bytes) (lowest index : Nat)
    (span : Span) : Prop where
  chunk : IsChunkAt style code span
  above : lowest ≤ span.start
  covers : span.Covers index
  last : ∀ other, IsChunkAt style code other → lowest ≤ other.start → other.Covers index →
    other.start ≤ span.start

/-- No chunk is empty, so none starts behind the code. -/
theorem start_lt_of_isChunk (isChunk : isChunk style (code.slice span) = true) :
    span.start < code.length := by
  apply Nat.lt_of_not_le
  intro beyond
  rw [Bytes.slice, List.drop_eq_nil_of_le beyond, List.take_nil, isChunk_nil] at isChunk
  cases isChunk

theorem chunkCovering?_eq_some_iff :
    chunkCovering? style code index start = some span ↔
      IsChunkAt style code span ∧ span.start = start ∧ index < span.stop := by
  constructor
  · intro found
    rw [chunkCovering?] at found
    split at found
    · rename_i size leading
      rcases leadingChunkSize?_eq_some_iff.mp leading with ⟨fits, chunk⟩
      split at found
      · rename_i covers
        cases found
        refine ⟨⟨?_, chunk⟩, rfl, covers⟩
        have isChunk : isChunk style (code.slice ⟨start, size⟩) = true := chunk
        have inside := start_lt_of_isChunk isChunk
        rw [List.length_drop] at fits
        simp only [Span.Within, Span.stop] at inside ⊢
        omega
      · cases found
    · cases found
  · rintro ⟨⟨within, chunk⟩, rfl, covers⟩
    have leading : leadingChunkSize? style (code.drop span.start) = some span.length := by
      apply leadingChunkSize?_eq_some_iff.mpr ⟨?_, chunk⟩
      simp only [Span.Within, Span.stop] at within
      rw [List.length_drop]
      omega
    simp only [chunkCovering?, leading]
    exact if_pos covers

theorem mem_placesDown_iff {place : Nat} :
    place ∈ placesDown lowest index ↔ lowest ≤ place ∧ place ≤ index := by
  constructor
  · exact mem_placesDown
  · rintro ⟨above, below⟩
    apply List.mem_map.mpr ⟨index - place, List.mem_range.mpr (by omega), ?_⟩
    omega

theorem placesDown_descending (lowest index : Nat) :
    (placesDown lowest index).Pairwise fun earlier later => later < earlier := by
  rw [placesDown, List.pairwise_map]
  apply List.Pairwise.imp_of_mem _ List.pairwise_lt_range
  intro first second _ inside before
  have reaches := List.mem_range.mp inside
  omega

theorem chunkAround?_eq_none_iff :
    chunkAround? style code lowest index = none ↔
      ∀ span, IsChunkAt style code span → lowest ≤ span.start → ¬ span.Covers index := by
  rw [chunkAround?, List.findSome?_eq_none_iff]
  constructor
  · intro none span chunk above covers
    have found := chunkCovering?_eq_some_iff.mpr ⟨chunk, rfl, covers.2⟩
    rw [none span.start (mem_placesDown_iff.mpr ⟨above, covers.1⟩)] at found
    cases found
  · intro none place member
    apply Option.eq_none_iff_forall_not_mem.mpr
    intro span found
    rcases chunkCovering?_eq_some_iff.mp found with ⟨chunk, rfl, reaches⟩
    rcases mem_placesDown_iff.mp member with ⟨above, below⟩
    exact none span chunk above ⟨below, reaches⟩

theorem chunkAround?_eq_some (found : chunkAround? style code lowest index = some span) :
    LastChunkAround style code lowest index span := by
  rcases List.findSome?_eq_some_iff.mp found with
    ⟨later, place, earlier, places, covering, none⟩
  rcases chunkCovering?_eq_some_iff.mp covering with ⟨chunk, rfl, reaches⟩
  have member : span.start ∈ placesDown lowest index := by
    rw [places]
    exact List.mem_append_right _ List.mem_cons_self
  rcases mem_placesDown_iff.mp member with ⟨above, below⟩
  refine ⟨chunk, above, ⟨below, reaches⟩, ?_⟩
  intro other isChunk otherAbove covers
  have descending := placesDown_descending lowest index
  have otherMember := mem_placesDown_iff.mpr ⟨otherAbove, covers.1⟩
  rw [places] at descending otherMember
  rcases List.mem_append.mp otherMember with tried | left
  · have found := chunkCovering?_eq_some_iff.mpr ⟨isChunk, rfl, covers.2⟩
    rw [none _ tried] at found
    cases found
  · rcases List.mem_cons.mp left with here | below
    · exact Nat.le_of_eq here
    · have lower := (List.pairwise_append.mp descending).2.1
      exact Nat.le_of_lt ((List.pairwise_cons.mp lower).1 _ below)

/-- The chunk is found, since code has one chunk at most at each place. -/
theorem LastChunkAround.chunkAround?
    (around : LastChunkAround style code lowest index span) :
    chunkAround? style code lowest index = some span := by
  cases found : Auxdata.chunkAround? style code lowest index with
  | none =>
      exact absurd around.covers
        (chunkAround?_eq_none_iff.mp found span around.chunk around.above)
  | some other =>
      have last := chunkAround?_eq_some found
      have starts : other.start = span.start :=
        Nat.le_antisymm (around.last other last.chunk last.above last.covers)
          (last.last span around.chunk around.above around.covers)
      have covering := chunkCovering?_eq_some_iff.mpr ⟨last.chunk, starts, last.covers.2⟩
      rw [chunkCovering?_eq_some_iff.mpr ⟨around.chunk, rfl, around.covers.2⟩] at covering
      exact covering.symm

/-! ## Runs of the search -/

/-- From `start` the search finds these chunks, and it goes on from `stop`. -/
inductive Located (style : Style) (code other : Bytes) : Nat → List Span → Nat → Prop
  | done (start : Nat) : Located style code other start [] start
  | next {start index stop : Nat} {span : Span} {spans : List Span}
      (difference : FirstDifference code other start index)
      (around : LastChunkAround style code start index span)
      (later : Located style code other span.stop spans stop) :
      Located style code other start (span :: spans) stop

theorem locateFrom_eq (style : Style) (code other : Bytes) (start : Nat) :
    locateFrom style code other start =
      match firstDifference? code other start with
      | none => .ok []
      | some index =>
        match chunkAround? style code start index with
        | none => .error (.auxdataNotFound index)
        | some span => (locateFrom style code other span.stop).map fun spans =>
            span :: spans := by
  rw [locateFrom]
  split
  · rename_i none
    rw [none]
  · rename_i difference
    rw [difference]
    dsimp only
    split
    · rename_i missing
      rw [missing]
    · rename_i span around
      rw [around]
      dsimp only
      cases locateFrom style code other span.stop with
      | error failure => rfl
      | ok spans => rfl

theorem locateFrom_of_same (none : firstDifference? code other start = none) :
    locateFrom style code other start = .ok [] := by
  rw [locateFrom_eq, none]

theorem locateFrom_of_missing
    (difference : firstDifference? code other start = some index)
    (missing : chunkAround? style code start index = none) :
    locateFrom style code other start = .error (.auxdataNotFound index) := by
  rw [locateFrom_eq, difference]
  dsimp only
  rw [missing]

theorem locateFrom_of_around (difference : firstDifference? code other start = some index)
    (around : chunkAround? style code start index = some span) :
    locateFrom style code other start =
      (locateFrom style code other span.stop).map fun spans => span :: spans := by
  rw [locateFrom_eq, difference]
  dsimp only
  rw [around]

/-- How the search ends: no difference is left, or there is no chunk around the next
one. -/
inductive Ends (style : Style) (code other : Bytes) (start : Nat) :
    Except MatchError (List Span) → Prop
  | covered {spans : List Span} {stop : Nat}
      (located : Located style code other start spans stop)
      (same : ∀ index, stop ≤ index → code[index]? = other[index]?) :
      Ends style code other start (.ok spans)
  | stuck {spans : List Span} {stop index : Nat}
      (located : Located style code other start spans stop)
      (difference : FirstDifference code other stop index)
      (uncovered : ∀ span, IsChunkAt style code span → stop ≤ span.start →
        ¬ span.Covers index) :
      Ends style code other start (.error (.auxdataNotFound index))

theorem Ends.cons {index : Nat} {outcome : Except MatchError (List Span)}
    (difference : FirstDifference code other start index)
    (around : LastChunkAround style code start index span)
    (ends : Ends style code other span.stop outcome) :
    Ends style code other start (outcome.map fun spans => span :: spans) := by
  cases ends with
  | covered located same => exact .covered (.next difference around located) same
  | stuck located other uncovered =>
      exact .stuck (.next difference around located) other uncovered

theorem locateFrom_ends (same : code.length = other.length) (start : Nat) :
    Ends style code other start (locateFrom style code other start) := by
  -- A chunk reaches beyond its difference, so less of the code is left after it.
  induction left : code.length - start using Nat.strongRecOn generalizing start with
  | _ left induction =>
      cases found : firstDifference? code other start with
      | none =>
          rw [locateFrom_of_same found]
          exact .covered (.done start) ((firstDifference?_eq_none_iff same).mp found)
      | some index =>
          have difference := (firstDifference?_eq_some_iff same).mp found
          cases around : chunkAround? style code start index with
          | none =>
              rw [locateFrom_of_missing found around]
              exact .stuck (.done start) difference (chunkAround?_eq_none_iff.mp around)
          | some span =>
              have last := chunkAround?_eq_some around
              have inside := firstDifference?_bounds found
              have reaches := last.covers.2
              rw [locateFrom_of_around found around]
              exact (induction _ (by omega) span.stop rfl).cons difference last

namespace Located

/-- Each step of a run is a step of the search. -/
theorem locateFrom_append (same : code.length = other.length)
    (located : Located style code other start spans stop) :
    locateFrom style code other start =
      (locateFrom style code other stop).map (spans ++ ·) := by
  induction located with
  | done start =>
      cases locateFrom style code other start with
      | error failure => rfl
      | ok spans => rfl
  | @next start index stop span spans difference around later induction =>
      rw [locateFrom_of_around ((firstDifference?_eq_some_iff same).mpr difference)
        around.chunkAround?, induction]
      cases locateFrom style code other stop with
      | error failure => rfl
      | ok others => rfl

/-- Every chunk is another byte of the way. -/
theorem length_le (located : Located style code other start spans stop) :
    start + spans.length ≤ stop := by
  induction located with
  | done start => exact Nat.le_refl _
  | next difference around later induction =>
      have reached := difference.reached
      have reaches := around.covers.2
      rw [List.length_cons]
      omega

theorem stop_le (located : Located style code other start spans stop)
    (inside : start ≤ code.length) : stop ≤ code.length := by
  induction located with
  | done start => exact inside
  | next difference around later induction => exact induction around.chunk.1

theorem stop_eq (located : Located style code other start spans stop) :
    stop = (spans.getLast?.map Span.stop).getD start := by
  induction located with
  | done start => rfl
  | @next start index stop span spans difference around later induction =>
      rw [induction, List.getLast?_cons]
      cases spans.getLast? with
      | none => rfl
      | some last => rfl

theorem above (located : Located style code other start spans stop) :
    ∀ span ∈ spans, start ≤ span.start := by
  induction located with
  | done start => exact nofun
  | next difference around later induction =>
      intro span member
      rcases List.mem_cons.mp member with rfl | there
      · exact around.above
      · have after := induction span there
        have reached := difference.reached
        have reaches := around.covers.2
        omega

theorem ascending (located : Located style code other start spans stop) :
    spans.Pairwise fun earlier later => earlier.stop ≤ later.start := by
  induction located with
  | done start => exact .nil
  | next difference around later induction => exact .cons later.above induction

/-- Every chunk of a run is one of the code, and the codes differ in it. -/
theorem chunks (located : Located style code other start spans stop) :
    ∀ span ∈ spans, IsChunkAt style code span ∧
      ∃ index, span.Covers index ∧ code[index]? ≠ other[index]? := by
  induction located with
  | done start => exact nofun
  | next difference around later induction =>
      intro span member
      rcases List.mem_cons.mp member with rfl | there
      · exact ⟨around.chunk, _, around.covers, difference.differs⟩
      · exact induction span there

/-- What a run has passed is the same in both codes outside of its chunks. -/
theorem same_outside (located : Located style code other start spans stop) {index : Nat}
    (reached : start ≤ index) (passed : index < stop)
    (outside : ∀ span ∈ spans, ¬ span.Covers index) : code[index]? = other[index]? := by
  induction located with
  | done start => exact absurd passed (Nat.not_lt.mpr reached)
  | next difference around later induction =>
      rcases List.forall_mem_cons.mp outside with ⟨notHere, notLater⟩
      rcases Nat.lt_or_ge index _ with before | after
      · exact difference.first index reached before
      · apply induction _ passed notLater
        apply Nat.le_of_not_lt
        exact fun inside => notHere ⟨Nat.le_trans around.covers.1 after, inside⟩

end Located

/-! ## Numbered chunks -/

theorem toString_injective : Function.Injective (toString : Nat → String) := by
  intro left right same
  have digits : Nat.toDigits 10 left = Nat.toDigits 10 right := by
    apply String.ofList_injective
    rw [← Nat.repr_eq_ofList_toDigits, ← Nat.repr_eq_ofList_toDigits]
    exact same
  have read : ∀ number, Nat.ofDigitChars 10 (Nat.toDigits 10 number) 0 = number :=
    fun number => Nat.ofDigitChars_toDigits (by decide) (by decide)
  rw [← read left, digits, read]

theorem get?_numbered {chunks : List PlacedChunk} {key : String} {chunk : PlacedChunk} :
    (numbered chunks).get? key = some chunk ↔
      ∃ position, chunks[position]? = some chunk ∧ key = toString (position + 1) := by
  have entries : numbered chunks =
      .ofList (chunks.zipIdx.map fun placed => (toString (placed.2 + 1), placed.1)) := rfl
  have keys :
      (chunks.zipIdx.map fun placed => (toString (placed.2 + 1), placed.1)).map Prod.fst =
      (List.range' 0 chunks.length).map fun index => toString (index + 1) := by
    rw [List.map_map, ← List.zipIdx_map_snd 0 chunks, List.map_map]
    rfl
  have distinct : ((chunks.zipIdx.map fun placed =>
      (toString (placed.2 + 1), placed.1)).map Prod.fst).Nodup := by
    rw [keys]
    apply List.Nodup.map _ List.nodup_range'
    intro left right same
    exact Nat.succ.inj (toString_injective same)
  rw [entries, Dictionary.get?_ofList_eq_some_iff distinct, List.mem_map]
  constructor
  · rintro ⟨⟨found, position⟩, member, pair⟩
    cases pair
    exact ⟨position, List.mem_zipIdx_iff_getElem?.mp member, rfl⟩
  · rintro ⟨position, found, rfl⟩
    exact ⟨(chunk, position), List.mem_zipIdx_iff_getElem?.mpr found, rfl⟩

theorem IsChunkAt.span_placedChunk (chunk : IsChunkAt style code span)
    (small : code.length ≤ UInt32.size) : (placedChunk code span).span = span := by
  have start :=
    UInt32.toNat_ofNat_of_lt' (Nat.lt_of_lt_of_le (start_lt_of_isChunk chunk.2) small)
  rw [PlacedChunk.span, placedChunk, start, Bytes.length_slice chunk.1]

theorem Located.span_placedChunk (located : Located style code other start spans stop)
    (small : code.length ≤ UInt32.size) :
    ∀ span ∈ spans, (placedChunk code span).span = span :=
  fun span member => (located.chunks span member).1.span_placedChunk small

theorem Located.ordered (located : Located style code other start spans stop)
    (small : code.length ≤ UInt32.size) :
    (spans.map (placedChunk code)).Pairwise fun earlier later =>
      earlier.offset < later.offset ∧ earlier.span.Disjoint later.span := by
  rw [List.pairwise_map]
  apply located.ascending.imp_of_mem
  intro earlier later earlierMember laterMember before
  have earlierSpan := located.span_placedChunk small earlier earlierMember
  have laterSpan := located.span_placedChunk small later laterMember
  rcases (located.chunks earlier earlierMember).2 with ⟨index, covers, _⟩
  constructor
  · apply UInt32.lt_iff_toNat_lt.mpr
    change (placedChunk code earlier).span.start < (placedChunk code later).span.start
    rw [earlierSpan, laterSpan]
    exact Nat.lt_of_lt_of_le (Nat.lt_of_le_of_lt covers.1 covers.2) before
  · rw [earlierSpan, laterSpan]
    intro index inEarlier inLater
    exact absurd (Nat.lt_of_lt_of_le inEarlier.2 before) (Nat.not_lt.mpr inLater.1)

/-- The search ends after no more chunks than the code has bytes. Its chunks are
complete, share no byte, and cover every difference of the codes; otherwise it tells of
a difference that no chunk after the ones before it covers. -/
theorem locate_covers_differences (style : Style) {code other : Bytes}
    (same : code.length = other.length) (small : code.length ≤ UInt32.size) :
    (∀ spans stop, Located style code other 0 spans stop → spans.length ≤ code.length ∧
      locateFrom style code other 0 =
        (locateFrom style code other stop).map (spans ++ ·)) ∧
    (∀ chunks, locate style code other = .ok chunks → ∃ found : List PlacedChunk,
      (∀ key chunk, chunks.get? key = some chunk ↔
        ∃ position, found[position]? = some chunk ∧ key = toString (position + 1)) ∧
      found.Pairwise (fun earlier later => earlier.offset < later.offset ∧
        earlier.span.Disjoint later.span) ∧
      (∀ chunk ∈ found, chunk.span.Within code.length ∧
        chunk.value = code.slice chunk.span ∧
        isChunk style chunk.value = true ∧
        ∃ index, chunk.span.Covers index ∧ code[index]? ≠ other[index]?) ∧
      ∀ index, (∀ chunk ∈ found, ¬ chunk.span.Covers index) →
        code[index]? = other[index]?) ∧
    (∀ failure, locate style code other = .error failure → ∃ spans stop index,
      failure = .auxdataNotFound index ∧ Located style code other 0 spans stop ∧
      stop = (spans.getLast?.map Span.stop).getD 0 ∧ code[index]? ≠ other[index]? ∧
      ∀ span : Span, stop ≤ span.start → span.Within code.length →
        isChunk style (code.slice span) = true → ¬ span.Covers index) := by
  refine ⟨?_, ?_, ?_⟩
  · intro spans stop located
    have length := located.length_le
    have inside := located.stop_le (Nat.zero_le _)
    exact ⟨by omega, located.locateFrom_append same⟩
  · intro chunks found
    rw [locate, if_neg (not_not_intro same)] at found
    have ends : Ends style code other 0 (locateFrom style code other 0) :=
      locateFrom_ends same 0
    generalize locateFrom style code other 0 = outcome at found ends
    cases ends with
    | stuck located difference uncovered => cases found
    | @covered spans stop located sameAfter =>
        cases found
        have placed := located.span_placedChunk small
        refine ⟨spans.map (placedChunk code), fun key chunk => get?_numbered,
          located.ordered small, ?_, ?_⟩
        · intro chunk member
          rcases List.mem_map.mp member with ⟨span, spanMember, rfl⟩
          rw [placed span spanMember]
          rcases located.chunks span spanMember with ⟨chunk, difference⟩
          exact ⟨chunk.1, rfl, chunk.2, difference⟩
        · intro index outside
          rcases Nat.lt_or_ge index stop with passed | after
          · apply located.same_outside (Nat.zero_le _) passed
            intro span member
            rw [← placed span member]
            exact outside _ (List.mem_map_of_mem member)
          · exact sameAfter index after
  · intro failure failed
    rw [locate, if_neg (not_not_intro same)] at failed
    have ends : Ends style code other 0 (locateFrom style code other 0) :=
      locateFrom_ends same 0
    generalize locateFrom style code other 0 = outcome at failed ends
    cases ends with
    | covered located sameAfter => cases failed
    | stuck located difference uncovered =>
        cases failed
        exact ⟨_, _, _, rfl, located, located.stop_eq, difference.differs,
          fun span after within chunk => uncovered span ⟨within, chunk⟩ after⟩

/-- A byte of code, and the version of a compiler behind it. -/
def codeOfVersion (patch : UInt8) : Bytes :=
  [0xFE, 0xA1, 0x65, 0x76, 0x79, 0x70, 0x65, 0x72, 0x83, 0, 3, patch]

theorem locate_covers_versions :
    ∃ chunks chunk,
      locate .vyperBefore035 (codeOfVersion 4) (codeOfVersion 3) = .ok chunks ∧
      chunks.get? "1" = some chunk ∧ isChunk .vyperBefore035 chunk.value = true ∧
      chunk.span.Covers 11 := by
  have located : locate .vyperBefore035 (codeOfVersion 4) (codeOfVersion 3) =
      .ok (numbered [placedChunk (codeOfVersion 4) ⟨1, 11⟩]) := by
    have difference : firstDifference? (codeOfVersion 4) (codeOfVersion 3) 0 =
        some 11 := by decide
    have around : chunkAround? .vyperBefore035 (codeOfVersion 4) 0 11 = some ⟨1, 11⟩ := by
      decide +kernel
    have same : firstDifference? (codeOfVersion 4) (codeOfVersion 3)
        (Span.mk 1 11).stop = none := by
      decide
    rw [locate, if_neg (by decide), locateFrom_of_around difference around,
      locateFrom_of_same same]
    rfl
  have first : (numbered [placedChunk (codeOfVersion 4) ⟨1, 11⟩]).get? "1" =
      some (placedChunk (codeOfVersion 4) ⟨1, 11⟩) := rfl
  have same : (codeOfVersion 4).length = (codeOfVersion 3).length := rfl
  rcases (locate_covers_differences .vyperBefore035 same (by decide)).2.1 _ located
    with ⟨found, entries, _, chunks, _⟩
  rcases (entries "1" _).mp first with ⟨position, here, _⟩
  rcases chunks _ (List.mem_of_getElem? here) with ⟨_, _, isChunk, _⟩
  exact ⟨_, _, located, first, isChunk, by decide⟩

end ContractCode.Auxdata
