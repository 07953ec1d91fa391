import ContractCode.Proofs.Outcome
import Mathlib.Data.List.Basic
import Mathlib.Data.List.Pairwise

/-! # Replacing chunks at once

Substitution works through the chunks one after another, and each removal moves what
follows it. For chunks that share no byte the outcome is the same as if all of them were
replaced at once: `replaceAtOnce` says what that is, index by index.
-/

namespace ContractCode

namespace Bytes

/-- Puts bytes of any length in the place of a span. -/
def splice (code : Bytes) (span : Span) (value : Bytes) : Bytes :=
  code.take span.start ++ value ++ code.drop span.stop

theorem splice_of_length_eq {code value : Bytes} {span : Span}
    (size : value.length = span.length) :
    code.splice span value = code.overwrite span.start value := by
  rw [splice, overwrite, size, Span.stop]

theorem splice_nil (code : Bytes) (span : Span) :
    code.splice span [] = code.remove span := by
  rw [splice, remove, List.append_nil]

theorem splice_nil_of_length_eq_zero {code : Bytes} {span : Span}
    (empty : span.length = 0) :
    code.splice span [] = code := by
  rw [splice, Span.stop, empty, Nat.add_zero, List.append_nil, List.take_append_drop]

theorem splice_slice {code : Bytes} {span : Span} (within : span.Within code.length) :
    code.splice span (code.slice span) = code := by
  rw [splice_of_length_eq (length_slice within), overwrite_slice within]

theorem length_splice {code value : Bytes} {span : Span}
    (within : span.Within code.length) :
    (code.splice span value).length =
      span.start + (value.length + (code.length - span.stop)) := by
  simp only [Span.Within, Span.stop] at within
  simp only [splice, Span.stop, List.length_append, List.length_take, List.length_drop]
  omega

theorem getElem?_splice_of_lt {code value : Bytes} {span : Span}
    (within : span.Within code.length)
    {index : Nat} (below : index < span.start) :
    (code.splice span value)[index]? = code[index]? := by
  simp only [Span.Within, Span.stop] at within
  rw [splice, List.append_assoc,
    List.getElem?_append_left (by rw [List.length_take]; omega),
    List.getElem?_take_of_lt below]

theorem drop_splice {code value : Bytes} {span : Span}
    (within : span.Within code.length) :
    (code.splice span value).drop span.start = value ++ code.drop span.stop := by
  simp only [Span.Within, Span.stop] at within
  rw [splice, List.append_assoc]
  apply List.drop_left'
  rw [List.length_take]
  omega

/-- The bytes of a span are those at its indices, one after another. -/
theorem flatMap_slice_one (code : Bytes) (start count : Nat) :
    (List.range' start count).flatMap (fun index => code.slice ⟨index, 1⟩) =
      code.slice ⟨start, count⟩ := by
  induction count generalizing start with
  | zero => simp [slice]
  | succ count induction =>
      rw [List.range'_succ, List.flatMap_cons, induction]
      simp only [slice]
      cases found : code.drop start with
      | nil =>
          have beyond : code.length ≤ start := List.drop_eq_nil_iff.mp found
          simp [List.drop_eq_nil_of_le (Nat.le_succ_of_le beyond)]
      | cons byte rest =>
          rw [← List.drop_drop, found]
          simp

end Bytes

namespace Matching

variable {style : Auxdata.Style} {onChain code : Bytes}

/-! ## One chunk -/

def replacement (style : Auxdata.Style) (onChain : Bytes) (span : Span) : Bytes :=
  (chunkOnChain? style onChain span).getD []

/-- No chunk is empty, so nothing takes the place of an empty span. -/
theorem replacement_of_length_eq_zero {span : Span} (empty : span.length = 0) :
    replacement style onChain span = [] := by
  rw [replacement, chunkOnChain?]
  cases found : onChain.slice? span with
  | none => rfl
  | some value =>
      have size := Bytes.length_of_slice? found
      rw [empty] at size
      rw [List.eq_nil_of_length_eq_zero size, Option.filter, Auxdata.isChunk_nil]
      rfl

theorem replacement_eq_nil_iff {span : Span} :
    replacement style onChain span = [] ↔ chunkOnChain? style onChain span = none := by
  rw [replacement]
  cases found : chunkOnChain? style onChain span with
  | none => exact iff_of_true rfl rfl
  | some value =>
      have isChunk := (Option.filter_eq_some_iff.mp found).2
      refine iff_of_false ?_ nofun
      rintro rfl
      rw [Auxdata.isChunk_nil] at isChunk
      exact Bool.false_ne_true isChunk

theorem code_of_substituteChunk {state next : Substituted} {numbered : NumberedChunk}
    (substituted : substituteChunk style onChain state numbered = .ok next) :
    numbered.chunk.span.Within state.code.length ∧
      next.code = state.code.splice numbered.chunk.span
        (replacement style onChain numbered.chunk.span) := by
  rw [substituteChunk] at substituted
  rcases Run.bind_eq_ok_iff.mp substituted with ⟨_, checked, substituted⟩
  have within := Span.checkedWithin_eq_ok_iff.mp checked
  refine ⟨within, ?_⟩
  rw [replacement]
  cases found : chunkOnChain? style onChain numbered.chunk.span with
  | none =>
      simp only [found] at substituted
      cases substituted
      exact (Bytes.splice_nil _ _).symm
  | some value =>
      have size : value.length = numbered.chunk.span.length :=
        Bytes.length_of_slice? (Option.filter_eq_some_iff.mp found).1
      simp only [found] at substituted
      split at substituted
      · rename_i same
        cases substituted
        rw [Option.getD_some, ← same]
        exact (Bytes.splice_slice within).symm
      · cases substituted
        exact (Bytes.splice_of_length_eq size).symm

/-! ## All chunks -/

def coveringChunk? (chunks : List NumberedChunk) (index : Nat) : Option NumberedChunk :=
  chunks.find? fun numbered => numbered.chunk.span.Covers index

/-- What is there instead of the byte at an index: the byte itself outside of all
chunks, and for a chunk its replacement at the first of its indices. -/
def pieceAt (style : Auxdata.Style) (onChain : Bytes) (chunks : List NumberedChunk)
    (code : Bytes)
    (index : Nat) : Bytes :=
  match coveringChunk? chunks index with
  | none => code.slice ⟨index, 1⟩
  | some numbered =>
    if index = numbered.chunk.span.start then
      replacement style onChain numbered.chunk.span else []

/-- The code with every chunk replaced, all at the places that they have in the code. -/
def replaceAtOnce (style : Auxdata.Style) (onChain : Bytes) (chunks : List NumberedChunk)
    (code : Bytes) : Bytes :=
  (List.range' 0 code.length).flatMap (pieceAt style onChain chunks code)

def ChunksDisjoint (chunks : List NumberedChunk) : Prop :=
  chunks.Pairwise fun left right => left.chunk.span.Disjoint right.chunk.span

instance (chunks : List NumberedChunk) : Decidable (ChunksDisjoint chunks) :=
  inferInstanceAs (Decidable (chunks.Pairwise _))

section

variable {chunks others rest : List NumberedChunk} {head : NumberedChunk} {other : Bytes}

theorem coveringChunk?_cons_of_covers {index : Nat}
    (covers : head.chunk.span.Covers index) :
    coveringChunk? (head :: rest) index = some head :=
  List.find?_cons_of_pos (decide_eq_true covers)

theorem coveringChunk?_cons_of_not_covers {index : Nat}
    (outside : ¬ head.chunk.span.Covers index) :
    coveringChunk? (head :: rest) index = coveringChunk? rest index :=
  List.find?_cons_of_neg (by simpa using outside)

theorem coveringChunk?_eq_none_iff {index : Nat} :
    coveringChunk? chunks index = none ↔
      ∀ numbered ∈ chunks, ¬ numbered.chunk.span.Covers index := by
  simp [coveringChunk?]

/-- Among chunks that share no byte only one can cover an index. -/
theorem coveringChunk?_eq_some_iff (disjoint : ChunksDisjoint chunks) {index : Nat}
    {numbered : NumberedChunk} :
    coveringChunk? chunks index = some numbered ↔
      numbered ∈ chunks ∧ numbered.chunk.span.Covers index := by
  constructor
  · intro found
    rw [coveringChunk?] at found
    have covers := List.find?_some found
    exact ⟨List.mem_of_find?_eq_some found, of_decide_eq_true covers⟩
  · rintro ⟨member, covers⟩
    induction chunks with
    | nil => cases member
    | cons head rest induction =>
        rcases List.pairwise_cons.mp disjoint with ⟨apart, disjoint⟩
        rcases List.mem_cons.mp member with here | there
        · subst here
          exact coveringChunk?_cons_of_covers covers
        · rw [coveringChunk?_cons_of_not_covers fun inHead =>
            apart numbered there index inHead covers]
          exact induction disjoint there

theorem coveringChunk?_perm (disjoint : ChunksDisjoint chunks) (same : chunks.Perm others)
    (index : Nat) : coveringChunk? chunks index = coveringChunk? others index := by
  have otherDisjoint : ChunksDisjoint others := disjoint.perm same fun apart => apart.symm
  apply Option.ext
  intro numbered
  rw [coveringChunk?_eq_some_iff disjoint, coveringChunk?_eq_some_iff otherDisjoint,
    same.mem_iff]

theorem replaceAtOnce_perm (disjoint : ChunksDisjoint chunks) (same : chunks.Perm others)
    (code : Bytes) :
    replaceAtOnce style onChain chunks code =
      replaceAtOnce style onChain others code := by
  apply List.flatMap_congr
  intro index _
  rw [pieceAt, pieceAt, coveringChunk?_perm disjoint same]

/-! ### From the highest chunk to the lowest -/

/-- Where no chunk is any more, the code goes on to its end as it is. -/
theorem pieces_to_end {start : Nat}
    (uncovered : ∀ index, start ≤ index → coveringChunk? chunks index = none) :
    (List.range' start (code.length - start)).flatMap
      (pieceAt style onChain chunks code) =
      code.drop start := by
  have pieces : (List.range' start (code.length - start)).flatMap
      (pieceAt style onChain chunks code) =
      (List.range' start (code.length - start)).flatMap fun index =>
        code.slice ⟨index, 1⟩ := by
    apply List.flatMap_congr
    intro index member
    rw [pieceAt, uncovered index (List.mem_range'_1.mp member).1]
  rw [pieces, Bytes.flatMap_slice_one, Bytes.slice]
  exact List.take_of_length_le (Nat.le_of_eq List.length_drop)

theorem replaceAtOnce_split {bound : Nat} (within : bound ≤ code.length) :
    replaceAtOnce style onChain chunks code =
      (List.range' 0 bound).flatMap (pieceAt style onChain chunks code) ++
        (List.range' bound (code.length - bound)).flatMap
          (pieceAt style onChain chunks code) := by
  have indices : List.range' 0 code.length =
      List.range' 0 bound ++ List.range' bound (code.length - bound) := by
    have joined := @List.range'_append_1 0 bound (code.length - bound)
    rw [Nat.zero_add, Nat.add_sub_cancel' within] at joined
    exact joined.symm
  rw [replaceAtOnce, indices, List.flatMap_append]

theorem pieces_below {bound : Nat}
    (covering : ∀ index < bound,
      coveringChunk? chunks index = coveringChunk? others index)
    (bytes : ∀ index < bound, code[index]? = other[index]?) :
    (List.range' 0 bound).flatMap (pieceAt style onChain chunks code) =
      (List.range' 0 bound).flatMap (pieceAt style onChain others other) := by
  apply List.flatMap_congr
  intro index member
  have below : index < bound := by simpa using (List.mem_range'_1.mp member).2
  have byte : code.slice ⟨index, 1⟩ = other.slice ⟨index, 1⟩ := by
    apply Bytes.slice_congr
    intro place covers
    simp only [Span.Covers, Span.stop] at covers
    exact bytes place (by omega)
  rw [pieceAt, pieceAt, covering index below, byte]

theorem pieces_of_head (filled : 0 < head.chunk.span.length) :
    (List.range' head.chunk.span.start head.chunk.span.length).flatMap
        (pieceAt style onChain (head :: rest) code) =
      replacement style onChain head.chunk.span := by
  rcases Nat.exists_eq_succ_of_ne_zero (Nat.ne_of_gt filled) with ⟨count, size⟩
  have piece : ∀ index, head.chunk.span.Covers index →
      pieceAt style onChain (head :: rest) code index =
        if index = head.chunk.span.start then replacement style onChain head.chunk.span
        else [] := by
    intro index covers
    rw [pieceAt, coveringChunk?_cons_of_covers covers]
  have later : (List.range' (head.chunk.span.start + 1) count).flatMap
      (pieceAt style onChain (head :: rest) code) = [] := by
    apply List.flatMap_eq_nil_iff.mpr
    intro index member
    have place := List.mem_range'_1.mp member
    rw [piece index ⟨by omega, by rw [Span.stop, size]; omega⟩, if_neg (by omega)]
  rw [size, List.range'_succ, List.flatMap_cons, later,
    piece head.chunk.span.start ⟨Nat.le_refl _, Nat.lt_add_of_pos_right filled⟩,
    if_pos rfl, List.append_nil]

theorem replaceAtOnce_nil (code : Bytes) :
    replaceAtOnce style onChain [] code = code := by
  have uncovered : ∀ index, 0 ≤ index → coveringChunk? [] index = none :=
    fun index _ => rfl
  exact pieces_to_end uncovered

theorem replaceAtOnce_cons_of_length_eq_zero (empty : head.chunk.span.length = 0) :
    replaceAtOnce style onChain (head :: rest) code =
      replaceAtOnce style onChain rest code := by
  apply List.flatMap_congr
  intro index _
  rw [pieceAt, pieceAt, coveringChunk?_cons_of_not_covers]
  rintro ⟨after, before⟩
  rw [Span.stop, empty] at before
  omega

/-- The highest chunk can be replaced first: that moves none of the others. -/
theorem replaceAtOnce_cons_of_below (filled : 0 < head.chunk.span.length)
    (within : head.chunk.span.Within code.length)
    (below : ∀ numbered ∈ rest, ∀ index, numbered.chunk.span.Covers index →
      index < head.chunk.span.start) :
    replaceAtOnce style onChain (head :: rest) code =
      replaceAtOnce style onChain rest
        (code.splice head.chunk.span (replacement style onChain head.chunk.span)) := by
  have uncovered : ∀ index, head.chunk.span.start ≤ index →
      coveringChunk? rest index = none := by
    intro index above
    apply coveringChunk?_eq_none_iff.mpr
    intro numbered member covers
    exact absurd (below numbered member index covers) (Nat.not_lt.mpr above)
  have start : head.chunk.span.start ≤ code.length := within.start_le
  have indices : List.range' head.chunk.span.start (code.length - head.chunk.span.start) =
      List.range' head.chunk.span.start head.chunk.span.length ++
        List.range' head.chunk.span.stop (code.length - head.chunk.span.stop) := by
    rw [Span.stop, List.range'_append_1]
    congr 1
    simp only [Span.Within, Span.stop] at within
    omega
  have behind :
      (List.range' head.chunk.span.stop (code.length - head.chunk.span.stop)).flatMap
      (pieceAt style onChain (head :: rest) code) = code.drop head.chunk.span.stop := by
    apply pieces_to_end
    intro index above
    rw [coveringChunk?_cons_of_not_covers fun covers =>
      absurd covers.2 (Nat.not_lt.mpr above)]
    exact uncovered index (Nat.le_trans (Nat.le_add_right _ _) above)
  have before : (List.range' 0 head.chunk.span.start).flatMap
      (pieceAt style onChain (head :: rest) code) =
        (List.range' 0 head.chunk.span.start).flatMap
          (pieceAt style onChain rest
            (code.splice head.chunk.span
              (replacement style onChain head.chunk.span))) := by
    apply pieces_below
    · intro index below
      exact coveringChunk?_cons_of_not_covers fun covers =>
        absurd covers.1 (Nat.not_le.mpr below)
    · intro index below
      exact (Bytes.getElem?_splice_of_lt within below).symm
  have reaches : head.chunk.span.start ≤
      (code.splice head.chunk.span
        (replacement style onChain head.chunk.span)).length := by
    rw [Bytes.length_splice within]
    exact Nat.le_add_right _ _
  rw [replaceAtOnce_split start, indices, List.flatMap_append, pieces_of_head filled,
    behind, before, replaceAtOnce_split reaches, pieces_to_end uncovered,
    Bytes.drop_splice within]

/-- A run of substitutions from the highest chunk to the lowest replaces them all at
once. -/
theorem code_of_run {initial final : Substituted} (disjoint : ChunksDisjoint chunks)
    (descending : chunks.Pairwise fun left right =>
      right.chunk.span.start ≤ left.chunk.span.start)
    (ran : chunks.foldlM (substituteChunk style onChain) initial = .ok final) :
    final.code = replaceAtOnce style onChain chunks initial.code := by
  induction chunks generalizing initial with
  | nil =>
      rw [Run.nil_eq_ok_iff] at ran
      rw [replaceAtOnce_nil, ran]
  | cons head rest induction =>
      rcases List.pairwise_cons.mp disjoint with ⟨apart, disjoint⟩
      rcases List.pairwise_cons.mp descending with ⟨lower, descending⟩
      rcases Run.cons_eq_ok_iff.mp ran with ⟨next, substituted, ran⟩
      rcases code_of_substituteChunk substituted with ⟨within, spliced⟩
      rw [induction disjoint descending ran, spliced]
      rcases Nat.eq_zero_or_pos head.chunk.span.length with empty | filled
      · rw [replaceAtOnce_cons_of_length_eq_zero empty,
          replacement_of_length_eq_zero empty, Bytes.splice_nil_of_length_eq_zero empty]
      · symm
        apply replaceAtOnce_cons_of_below filled within
        intro numbered member index covers
        exact (apart numbered member).symm.lt_of_covers (lower numbered member)
          filled covers

theorem perm_chunksDescending (chunks : PlacedChunks) :
    (chunksDescending chunks).Perm (numberedChunks chunks) :=
  List.mergeSort_perm _ _

theorem descending_chunksDescending (chunks : PlacedChunks) :
    (chunksDescending chunks).Pairwise fun left right =>
      right.chunk.span.start ≤ left.chunk.span.start := by
  have sorted : (chunksDescending chunks).Pairwise fun left right =>
      decide (right.chunk.offset ≤ left.chunk.offset) = true := by
    apply List.pairwise_mergeSort
    · intro first second third above further
      simp only [decide_eq_true_eq] at above further ⊢
      exact UInt32.le_trans further above
    · intro first second
      simp only [Bool.or_eq_true, decide_eq_true_eq]
      exact UInt32.le_total _ _
  exact sorted.imp fun ordered => UInt32.le_iff_toNat_le.mp (of_decide_eq_true ordered)

theorem code_of_recordSubstitutions (substitutions : List Substitution)
    (populated : PopulatedCode) :
    (substitutions.foldl recordSubstitution populated).code = populated.code := by
  induction substitutions generalizing populated with
  | nil => rfl
  | cons substitution substitutions induction => exact induction _

theorem code_of_substituteChunks {chunks : PlacedChunks} {populated final : PopulatedCode}
    (disjoint : ChunksDisjoint (numberedChunks chunks))
    (replaced : substituteChunks style onChain chunks populated = .ok (some final)) :
    final.code = replaceAtOnce style onChain (numberedChunks chunks) populated.code := by
  rcases substituteChunks_eq_ok_some replaced with ⟨last, ran, rfl⟩
  have sameChunks := perm_chunksDescending chunks
  rw [code_of_recordSubstitutions,
    ← replaceAtOnce_perm (disjoint.perm sameChunks.symm fun apart =>
      apart.symm) sameChunks]
  exact code_of_run (disjoint.perm sameChunks.symm fun apart => apart.symm)
    (descending_chunksDescending chunks) ran

end

end Matching

end ContractCode
