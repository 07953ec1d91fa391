import ContractCode.Proofs.Replacement
import Mathlib.Data.List.Nodup

/-! # Runs of substitutions

For chunks that share no byte the substitution does not fail. Every chunk that is not
already as it is on chain is logged once, from the lowest to the highest, with what
takes its place.
-/

namespace ContractCode

namespace Bytes

theorem slice_splice_of_stop_le {code value : Bytes} {span other : Span}
    (within : span.Within code.length) (below : other.stop ≤ span.start) :
    (code.splice span value).slice other = code.slice other := by
  apply slice_congr
  intro index covers
  exact getElem?_splice_of_lt within (Nat.lt_of_lt_of_le covers.2 below)

end Bytes

namespace Matching

variable {style : Auxdata.Style} {onChain code : Bytes} {chunks : List NumberedChunk}

/-! ## What is logged -/

/-- The chunk of the code is not the one on chain. -/
def Changes (style : Auxdata.Style) (onChain code : Bytes)
    (numbered : NumberedChunk) : Prop :=
  chunkOnChain? style onChain numbered.chunk.span ≠ some (code.slice numbered.chunk.span)

instance (style : Auxdata.Style) (onChain code : Bytes) (numbered : NumberedChunk) :
    Decidable (Changes style onChain code numbered) :=
  inferInstanceAs (Decidable (_ ≠ _))

theorem changes_of_absent {code : Bytes} {numbered : NumberedChunk}
    (absent : chunkOnChain? style onChain numbered.chunk.span = none) :
    Changes style onChain code numbered := by
  rw [Changes, absent]
  nofun

def changedChunks (style : Auxdata.Style) (onChain code : Bytes)
    (chunks : List NumberedChunk) :
    List NumberedChunk :=
  chunks.filter fun numbered => Changes style onChain code numbered

def substitutionOf (style : Auxdata.Style) (onChain : Bytes) (numbered : NumberedChunk) :
    Substitution :=
  ⟨numbered.chunk.span.start, numbered.id, replacement style onChain numbered.chunk.span⟩

section

variable {head : NumberedChunk} {rest : List NumberedChunk}

theorem changedChunks_cons_of_changes (changes : Changes style onChain code head) :
    changedChunks style onChain code (head :: rest) =
      head :: changedChunks style onChain code rest :=
  List.filter_cons_of_pos (decide_eq_true changes)

theorem changedChunks_cons_of_not_changes (same : ¬ Changes style onChain code head) :
    changedChunks style onChain code (head :: rest) =
      changedChunks style onChain code rest :=
  List.filter_cons_of_neg (by simpa using same)

end

theorem changedChunks_congr {other : Bytes}
    (same : ∀ numbered ∈ chunks,
      other.slice numbered.chunk.span = code.slice numbered.chunk.span) :
    changedChunks style onChain other chunks =
      changedChunks style onChain code chunks := by
  apply List.filter_congr
  intro numbered member
  rw [decide_eq_decide, Changes, Changes, same numbered member]

/-! ## A run

The chunks are placed if they are parts of the code that share no byte. The steps are
taken from the highest chunk to the lowest, so what a step changes lies behind all
chunks that are still to come. -/

structure ArePlaced (chunks : List NumberedChunk) (codeLength : Nat) : Prop where
  disjoint : ChunksDisjoint chunks
  filled : ∀ numbered ∈ chunks, 0 < numbered.chunk.span.length
  within : ∀ numbered ∈ chunks, numbered.chunk.span.Within codeLength

theorem ArePlaced.perm {others : List NumberedChunk} {codeLength : Nat}
    (placed : ArePlaced chunks codeLength) (same : chunks.Perm others) :
    ArePlaced others codeLength where
  disjoint := placed.disjoint.perm same fun apart => apart.symm
  filled numbered member := placed.filled numbered (same.mem_iff.mpr member)
  within numbered member := placed.within numbered (same.mem_iff.mpr member)

/-- What is not above the first of the chunks lies below it. -/
theorem ArePlaced.stop_le {head : NumberedChunk} {rest : List NumberedChunk}
    {codeLength : Nat}
    (placed : ArePlaced (head :: rest) codeLength)
    (lower : ∀ numbered ∈ rest, numbered.chunk.span.start ≤ head.chunk.span.start) :
    ∀ numbered ∈ rest, numbered.chunk.span.stop ≤ head.chunk.span.start := by
  intro numbered member
  have apart := (List.pairwise_cons.mp placed.disjoint).1 numbered member
  exact apart.symm.stop_le (lower numbered member) (placed.filled head List.mem_cons_self)

theorem applied_of_substituteChunk {state : Substituted} {numbered : NumberedChunk}
    (within : numbered.chunk.span.Within state.code.length) :
    ∃ next, substituteChunk style onChain state numbered = .ok next ∧
      next.applied =
        if Changes style onChain state.code numbered then
          substitutionOf style onChain numbered :: state.applied
        else state.applied := by
  have checked :
      numbered.chunk.span.checkedWithin .cborAuxdata numbered.id state.code.length =
      .ok () := Span.checkedWithin_eq_ok_iff.mpr within
  rw [substituteChunk, checked, substitutionOf, replacement]
  cases found : chunkOnChain? style onChain numbered.chunk.span with
  | none =>
      rw [if_pos (changes_of_absent found)]
      exact ⟨_, rfl, rfl⟩
  | some value =>
      have same_iff : ¬ Changes style onChain state.code numbered ↔
          state.code.slice numbered.chunk.span = value := by
        rw [Changes, found, not_not, Option.some.injEq, eq_comm]
      by_cases changes : Changes style onChain state.code numbered
      · rw [if_pos changes]
        exact ⟨_, if_neg fun same => same_iff.mpr same changes, rfl⟩
      · rw [if_neg changes]
        exact ⟨state, if_pos (same_iff.mp changes), rfl⟩

theorem applied_of_run {initial : Substituted}
    (placed : ArePlaced chunks initial.code.length)
    (descending : chunks.Pairwise fun left right =>
      right.chunk.span.start ≤ left.chunk.span.start) :
    ∃ final, chunks.foldlM (substituteChunk style onChain) initial = .ok final ∧
      final.applied =
        ((changedChunks style onChain initial.code chunks).map
          (substitutionOf style onChain)).reverse ++
          initial.applied := by
  induction chunks generalizing initial with
  | nil => exact ⟨initial, rfl, rfl⟩
  | cons head rest induction =>
      rcases List.pairwise_cons.mp descending with ⟨lower, descending⟩
      have below := placed.stop_le lower
      have headWithin := placed.within head List.mem_cons_self
      rcases applied_of_substituteChunk headWithin with ⟨next, stepped, logged⟩
      rcases code_of_substituteChunk stepped with ⟨_, spliced⟩
      have nextPlaced : ArePlaced rest next.code.length := by
        refine ⟨(List.pairwise_cons.mp placed.disjoint).2,
          (List.forall_mem_cons.mp placed.filled).2, ?_⟩
        intro numbered member
        rw [spliced, Bytes.length_splice headWithin]
        exact Nat.le_trans (below numbered member) (Nat.le_add_right _ _)
      have unchanged : changedChunks style onChain next.code rest =
          changedChunks style onChain initial.code rest := by
        apply changedChunks_congr
        intro numbered member
        rw [spliced]
        exact Bytes.slice_splice_of_stop_le headWithin (below numbered member)
      rcases induction nextPlaced descending with ⟨final, ran, applied⟩
      refine ⟨final, Run.cons_eq_ok_iff.mpr ⟨next, stepped, ran⟩, ?_⟩
      rw [applied, unchanged, logged]
      split
      · rename_i changes
        rw [changedChunks_cons_of_changes changes, List.map_cons, List.reverse_cons,
          List.append_assoc]
        rfl
      · rename_i same
        rw [changedChunks_cons_of_not_changes same]

/-! ## Turns

Chunks may overlap here, so the code that a chunk is looked up in is the one that the
chunks before it have left. -/

section

variable {head numbered : NumberedChunk} {rest : List NumberedChunk}

/-- The code with what is on chain in the place of its chunks, one after another. -/
def replaceInTurn (style : Auxdata.Style) (onChain : Bytes) (chunks : List NumberedChunk)
    (code : Bytes) : Bytes :=
  chunks.foldl (fun code numbered =>
    code.splice numbered.chunk.span (replacement style onChain numbered.chunk.span)) code

/-- The code when it is the turn of a chunk: all chunks before it are replaced. -/
def codeAtTurn (style : Auxdata.Style) (onChain : Bytes) (chunks : List NumberedChunk)
    (code : Bytes)
    (numbered : NumberedChunk) : Bytes :=
  replaceInTurn style onChain (chunks.takeWhile (· ≠ numbered)) code

theorem codeAtTurn_head : codeAtTurn style onChain (head :: rest) code head = code := by
  rw [codeAtTurn, List.takeWhile_cons_of_neg (by simp)]
  rfl

theorem codeAtTurn_of_ne (later : head ≠ numbered) :
    codeAtTurn style onChain (head :: rest) code numbered =
      codeAtTurn style onChain rest
        (code.splice head.chunk.span (replacement style onChain head.chunk.span))
          numbered := by
  rw [codeAtTurn, List.takeWhile_cons_of_pos (by simpa using later)]
  rfl

/-- The chunks that are not as they are on chain when it is their turn. -/
def changedInTurn (style : Auxdata.Style) (onChain : Bytes) (chunks : List NumberedChunk)
    (code : Bytes) : List NumberedChunk :=
  chunks.filter fun numbered =>
    Changes style onChain (codeAtTurn style onChain chunks code numbered) numbered

theorem mem_changedInTurn_iff :
    numbered ∈ changedInTurn style onChain chunks code ↔
      numbered ∈ chunks ∧
        Changes style onChain (codeAtTurn style onChain chunks code numbered)
          numbered := by
  rw [changedInTurn, List.mem_filter, decide_eq_true_eq]

theorem changedInTurn_cons (new : head ∉ rest) :
    changedInTurn style onChain (head :: rest) code =
      (if Changes style onChain code head then [head] else []) ++
        changedInTurn style onChain rest
          (code.splice head.chunk.span (replacement style onChain head.chunk.span)) := by
  have later : rest.filter (fun numbered =>
        Changes style onChain
          (codeAtTurn style onChain (head :: rest) code numbered) numbered) =
      changedInTurn style onChain rest
        (code.splice head.chunk.span (replacement style onChain head.chunk.span)) := by
    apply List.filter_congr
    intro numbered member
    have other : head ≠ numbered := by
      rintro rfl
      exact new member
    rw [codeAtTurn_of_ne other]
  rw [changedInTurn, List.filter_cons, later, codeAtTurn_head]
  by_cases changes : Changes style onChain code head
  · rw [if_pos changes, if_pos (decide_eq_true changes)]
    rfl
  · rw [if_neg changes, if_neg (by simpa using changes)]
    rfl

/-- What is done to disjoint chunks before it is the turn of a chunk does not reach it. -/
theorem slice_codeAtTurn (disjoint : ChunksDisjoint chunks)
    (descending : chunks.Pairwise fun left right =>
      right.chunk.span.start ≤ left.chunk.span.start)
    (within : ∀ numbered ∈ chunks, numbered.chunk.span.Within code.length)
    (member : numbered ∈ chunks) :
    (codeAtTurn style onChain chunks code numbered).slice numbered.chunk.span =
      code.slice numbered.chunk.span := by
  induction chunks generalizing code with
  | nil => cases member
  | cons head rest induction =>
      rcases List.pairwise_cons.mp disjoint with ⟨apart, disjoint⟩
      rcases List.pairwise_cons.mp descending with ⟨lower, descending⟩
      rcases List.forall_mem_cons.mp within with ⟨headWithin, restWithin⟩
      by_cases here : head = numbered
      · rw [here, codeAtTurn_head]
      have there : numbered ∈ rest := List.mem_of_ne_of_mem (Ne.symm here) member
      rw [codeAtTurn_of_ne here]
      rcases Nat.eq_zero_or_pos head.chunk.span.length with empty | filled
      · rw [replacement_of_length_eq_zero empty, Bytes.splice_nil_of_length_eq_zero empty]
        exact induction disjoint descending restWithin there
      · have below : ∀ other ∈ rest, other.chunk.span.stop ≤ head.chunk.span.start :=
          fun other otherMember =>
            (apart other otherMember).symm.stop_le (lower other otherMember) filled
        rw [induction disjoint descending _ there]
        · exact Bytes.slice_splice_of_stop_le headWithin (below numbered there)
        · intro other otherMember
          rw [Bytes.length_splice headWithin]
          exact Nat.le_trans (below other otherMember) (Nat.le_add_right _ _)

/-- A run replaces all chunks in turn, and applies the substitutions of those that are
not as they are on chain. -/
theorem run_in_turn {initial last : Substituted} (distinct : chunks.Nodup)
    (ran : chunks.foldlM (substituteChunk style onChain) initial = .ok last) :
    last.code = replaceInTurn style onChain chunks initial.code ∧
      last.applied =
        ((changedInTurn style onChain chunks initial.code).map
          (substitutionOf style onChain)).reverse ++
          initial.applied := by
  induction chunks generalizing initial with
  | nil =>
      rw [Run.nil_eq_ok_iff] at ran
      rw [← ran]
      exact ⟨rfl, rfl⟩
  | cons head rest induction =>
      rcases List.nodup_cons.mp distinct with ⟨new, distinct⟩
      rcases Run.cons_eq_ok_iff.mp ran with ⟨next, stepped, ran⟩
      rcases code_of_substituteChunk stepped with ⟨within, spliced⟩
      rcases applied_of_substituteChunk within with ⟨other, sameStep, logged⟩
      cases stepped.symm.trans sameStep
      rcases induction distinct ran with ⟨code, applied⟩
      refine ⟨code.trans (by rw [spliced]; rfl), ?_⟩
      rw [applied, logged, spliced, changedInTurn_cons new]
      split
      · rw [List.map_append, List.reverse_append, List.append_assoc]
        rfl
      · rfl

end

/-! ## The record of a run -/

theorem recordSubstitutions_eq (substitutions : List Substitution)
    (populated : PopulatedCode) :
    substitutions.foldl recordSubstitution populated =
      ⟨populated.code,
        populated.transformations ++
          substitutions.map fun substitution =>
            .cborAuxdata substitution.offset substitution.id,
        { populated.values with
          cborAuxdata := (substitutions.map fun substitution =>
            (substitution.id, substitution.value)).foldl
              (fun values entry => values.insert entry.1 entry.2)
                populated.values.cborAuxdata }⟩ := by
  induction substitutions generalizing populated with
  | nil =>
      rw [List.map_nil, List.append_nil]
      rfl
  | cons substitution substitutions induction =>
      rw [List.foldl_cons, induction]
      simp only [recordSubstitution, PopulatedCode.log, PopulatedCode.record,
        RecordedValues.addCborAuxdata, List.append_assoc, List.map_cons, List.foldl_cons]
      rfl

/-- Substitutions with distinct ids are all recorded. -/
theorem get?_cborAuxdata_recordSubstitutions {substitutions : List Substitution}
    (distinct : (substitutions.map (·.id)).Nodup) (populated : PopulatedCode)
    (new : populated.values.cborAuxdata = .empty) {id : String} {value : Bytes} :
    (substitutions.foldl recordSubstitution populated).values.cborAuxdata.get? id =
      some value ↔
      ∃ substitution ∈ substitutions, substitution.id = id ∧
        substitution.value = value := by
  have keys : ((substitutions.map fun substitution =>
      (substitution.id, substitution.value)).map Prod.fst).Nodup := by
    rw [List.map_map]
    exact distinct
  rw [recordSubstitutions_eq, Dictionary.get?_foldl_insert keys, new]
  simp [Prod.ext_iff]

/-! ## The whole substitution -/

section

variable {chunks : PlacedChunks} {populated : PopulatedCode}

def chunksAscending (chunks : PlacedChunks) : List NumberedChunk :=
  (chunksDescending chunks).reverse

theorem perm_chunksAscending (chunks : PlacedChunks) :
    (chunksAscending chunks).Perm (numberedChunks chunks) :=
  (List.reverse_perm _).trans (perm_chunksDescending chunks)

theorem mem_changedChunks_ascending_iff {numbered : NumberedChunk} :
    numbered ∈ changedChunks style onChain code (chunksAscending chunks) ↔
      numbered ∈ numberedChunks chunks ∧ Changes style onChain code numbered := by
  rw [changedChunks, List.mem_filter, (perm_chunksAscending chunks).mem_iff,
    decide_eq_true_iff]

theorem ascending_changedChunks {codeLength : Nat}
    (placed : ArePlaced (numberedChunks chunks) codeLength) (code : Bytes) :
    (changedChunks style onChain code (chunksAscending chunks)).Pairwise
      fun earlier later =>
      earlier.chunk.offset < later.chunk.offset := by
  have placed := placed.perm (perm_chunksAscending chunks).symm
  have starts : (chunksAscending chunks).Pairwise fun earlier later =>
      earlier.chunk.span.start ≤ later.chunk.span.start :=
    List.pairwise_reverse.mpr (descending_chunksDescending chunks)
  apply List.Pairwise.sublist List.filter_sublist
  apply (starts.and placed.disjoint).imp_of_mem
  intro earlier later earlierMember laterMember apart
  have earlierFilled := placed.filled earlier earlierMember
  have stop := apart.2.stop_le apart.1 (placed.filled later laterMember)
  exact UInt32.lt_iff_toNat_lt.mpr
    (Nat.lt_of_lt_of_le (Nat.lt_add_of_pos_right earlierFilled) stop)

theorem nodup_ids (chunks : PlacedChunks) :
    ((chunksAscending chunks).map (·.id)).Nodup := by
  apply ((perm_chunksAscending chunks).map _).nodup_iff.mpr
  rw [numberedChunks, List.map_map]
  exact chunks.nodup_keys

theorem nodup_ids_descending (chunks : PlacedChunks) :
    ((chunksDescending chunks).map (·.id)).Nodup :=
  ((List.reverse_perm _).map _).nodup_iff.mp (nodup_ids chunks)

theorem nodup_chunksDescending (chunks : PlacedChunks) :
    (chunksDescending chunks).Nodup :=
  (nodup_ids_descending chunks).of_map _

/-- Ids are the keys of the chunks, so no two chunks have the same. -/
theorem eq_of_id_eq {numbered other : NumberedChunk}
    (member : numbered ∈ numberedChunks chunks)
    (otherMember : other ∈ numberedChunks chunks) (same : numbered.id = other.id) :
    numbered = other := by
  have sameChunks := perm_chunksDescending chunks
  exact List.inj_on_of_nodup_map (nodup_ids_descending chunks)
    (sameChunks.mem_iff.mpr member)
    (sameChunks.mem_iff.mpr otherMember) same

/-- The code after the substitution, with the changed chunks in its log and among its
values. -/
def substitutedCode (style : Auxdata.Style) (onChain : Bytes) (chunks : PlacedChunks)
    (populated : PopulatedCode) : PopulatedCode :=
  let changed := changedChunks style onChain populated.code (chunksAscending chunks)
  { code := replaceAtOnce style onChain (numberedChunks chunks) populated.code
    transformations := populated.transformations ++
      changed.map fun numbered => .cborAuxdata numbered.chunk.span.start numbered.id
    values := { populated.values with
      cborAuxdata := (changed.map fun numbered =>
        (numbered.id, replacement style onChain numbered.chunk.span)).foldl
          (fun values entry => values.insert entry.1 entry.2)
            populated.values.cborAuxdata } }

/-- The run over placed chunks does not fail. It replaces all of them at once, and it
has applied what changes the code, from the lowest chunk to the highest. -/
theorem exists_run_of_placed (placed : ArePlaced (numberedChunks chunks) code.length) :
    ∃ last, (chunksDescending chunks).foldlM (substituteChunk style onChain)
      ⟨code, []⟩ = .ok last ∧
      last.code = replaceAtOnce style onChain (numberedChunks chunks) code ∧
      last.applied = (changedChunks style onChain code (chunksAscending chunks)).map
        (substitutionOf style onChain) := by
  have sameChunks := perm_chunksDescending chunks
  have descending := descending_chunksDescending chunks
  have placedDescending := placed.perm sameChunks.symm
  have start :
      ArePlaced (chunksDescending chunks) (⟨code, []⟩ : Substituted).code.length :=
    placedDescending
  rcases applied_of_run start descending with ⟨last, ran, applied⟩
  refine ⟨last, ran, ?_, ?_⟩
  · rw [code_of_run placedDescending.disjoint descending ran,
      replaceAtOnce_perm placedDescending.disjoint sameChunks]
  · rw [applied, List.append_nil, ← List.map_reverse, changedChunks, changedChunks,
      chunksAscending, List.filter_reverse]

/-- The substitution of placed chunks does not fail, and tells if it has changed
nothing. -/
theorem substituteChunks_eq
    (placed : ArePlaced (numberedChunks chunks) populated.code.length) :
    substituteChunks style onChain chunks populated =
      .ok (
        if changedChunks style onChain populated.code (chunksAscending chunks) = []
        then none
        else some (substitutedCode style onChain chunks populated)) := by
  have run : ∃ last, (chunksDescending chunks).foldlM (substituteChunk style onChain)
      ⟨populated.code, []⟩ = .ok last ∧ _ := exists_run_of_placed placed
  rcases run with ⟨last, ran, code, applied⟩
  rw [substituteChunks, ran]
  change (if last.applied.isEmpty then _ else _) = _
  have isEmpty_iff : last.applied.isEmpty = true ↔
      changedChunks style onChain populated.code (chunksAscending chunks) = [] := by
    rw [applied, List.isEmpty_iff, List.map_eq_nil_iff]
  by_cases unchanged :
    changedChunks style onChain populated.code (chunksAscending chunks) = []
  · rw [if_pos (isEmpty_iff.mpr unchanged), if_pos unchanged]
    rfl
  · rw [if_neg fun empty => unchanged (isEmpty_iff.mp empty), if_neg unchanged, applied,
      recordSubstitutions_eq, code, List.map_map, List.map_map]
    rfl

/-- Every changed chunk has what takes its place as its value, and under other ids
nothing changes. -/
theorem get?_cborAuxdata_substitutedCode_iff {id : String} {value : Bytes} :
    (substitutedCode style onChain chunks populated).values.cborAuxdata.get? id =
      some value ↔
      (∃ numbered ∈ changedChunks style onChain populated.code (chunksAscending chunks),
        numbered.id = id ∧ replacement style onChain numbered.chunk.span = value) ∨
      (∀ numbered ∈ changedChunks style onChain populated.code (chunksAscending chunks),
        numbered.id ≠ id) ∧ populated.values.cborAuxdata.get? id = some value := by
  have distinct :
      (((changedChunks style onChain populated.code (chunksAscending chunks)).map
      fun numbered => (numbered.id, replacement style onChain numbered.chunk.span)).map
        Prod.fst).Nodup := by
    rw [List.map_map]
    exact (nodup_ids chunks).sublist (List.filter_sublist.map _)
  rw [substitutedCode, Dictionary.get?_foldl_insert distinct]
  simp [Prod.ext_iff]

theorem get?_cborAuxdata_substitutedCode (new : populated.values.cborAuxdata = .empty)
    {id : String}
    {value : Bytes} :
    (substitutedCode style onChain chunks populated).values.cborAuxdata.get? id =
      some value ↔
      ∃ numbered ∈ changedChunks style onChain populated.code (chunksAscending chunks),
        numbered.id = id ∧ replacement style onChain numbered.chunk.span = value := by
  rw [get?_cborAuxdata_substitutedCode_iff, new, Dictionary.get?_empty]
  simp

/-! ## Chunks of other code -/

/-- Code that is other code but for some chunks becomes that code. -/
theorem replaceAtOnce_eq {chunks : List NumberedChunk} {other : Bytes}
    (placed : ArePlaced chunks code.length)
    (descending : chunks.Pairwise fun left right =>
      right.chunk.span.start ≤ left.chunk.span.start)
    (length : code.length = other.length)
    (replaced : ∀ numbered ∈ chunks,
      replacement style onChain numbered.chunk.span = other.slice numbered.chunk.span)
    (outside : ∀ index, (∀ numbered ∈ chunks, ¬ numbered.chunk.span.Covers index) →
      code[index]? = other[index]?) :
    replaceAtOnce style onChain chunks code = other := by
  induction chunks generalizing code with
  | nil =>
      rw [replaceAtOnce_nil]
      exact List.ext_getElem? fun index => outside index nofun
  | cons head rest induction =>
      rcases List.pairwise_cons.mp descending with ⟨lower, descending⟩
      rcases List.forall_mem_cons.mp replaced with ⟨headReplaced, restReplaced⟩
      have below := placed.stop_le lower
      have headWithin := placed.within head List.mem_cons_self
      have start : head.chunk.span.start ≤ code.length := headWithin.start_le
      have sliceLength : (other.slice head.chunk.span).length = head.chunk.span.length :=
        Bytes.length_slice (length ▸ headWithin)
      rw [replaceAtOnce_cons_of_below (placed.filled head List.mem_cons_self) headWithin
        fun numbered member index covers =>
          Nat.lt_of_lt_of_le covers.2 (below numbered member),
        headReplaced, Bytes.splice_of_length_eq sliceLength]
      have nextLength :
          (code.overwrite head.chunk.span.start (other.slice head.chunk.span)).length =
          code.length := by
        rw [Bytes.length_overwrite start, sliceLength]
        exact Nat.max_eq_left headWithin
      apply induction _ descending (nextLength.trans length) restReplaced
      · intro index uncovered
        rw [Bytes.getElem?_overwrite start, sliceLength]
        split
        · rename_i covers
          exact Bytes.getElem?_slice_of_covers other covers
        · rename_i notHere
          exact outside index (List.forall_mem_cons.mpr ⟨notHere, uncovered⟩)
      · rw [nextLength]
        exact ⟨(List.pairwise_cons.mp placed.disjoint).2,
          (List.forall_mem_cons.mp placed.filled).2,
          (List.forall_mem_cons.mp placed.within).2⟩

end

end Matching

end ContractCode
