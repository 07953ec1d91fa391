import ContractCode.Proofs.LocatedChunks
import Mathlib.Data.List.Pairwise

/-! # Nearest chunks

Two codes may differ in metadata alone: the first one has chunks that share no byte, and
every difference lies in one of them. The search does not know these chunks. It looks
backwards from a difference and takes the nearest start of a chunk around it, and a hash
or a text of the metadata may spell a chunk of its own. So the search finds the given
chunks if and only if none of them has such a chunk within it at the first difference.
Differences that come later do not matter: a chunk that is found is passed as a whole,
and the search looks back no farther than to its end.
-/

namespace ContractCode.Auxdata

variable {style : Style} {code other : Bytes} {start lowest index stop : Nat}
  {span : Span}
  {chunks spans : List Span}

/-- The codes differ at some index of the span. -/
def HasDifference (code other : Bytes) (span : Span) : Prop :=
  ∃ index, span.Covers index ∧ code[index]? ≠ other[index]?

/-- The codes differ only in chunks of the first one, which share no byte. -/
structure DiffersOnlyIn (style : Style) (chunks : List Span)
    (code other : Bytes) : Prop where
  chunk : ∀ span ∈ chunks, IsChunkAt style code span
  disjoint : chunks.Pairwise Span.Disjoint
  covered : ∀ index, code[index]? ≠ other[index]? → ∃ span ∈ chunks, span.Covers index

/-- No chunk around the first difference in the span starts after it. -/
def StartsLast (style : Style) (code other : Bytes) (span : Span) : Prop :=
  ∀ index, FirstDifference code other span.start index → span.Covers index →
    ∀ nested, IsChunkAt style code nested → nested.Covers index →
      nested.start ≤ span.start

instance (style : Style) (code : Bytes) (span : Span) :
    Decidable (IsChunkAt style code span) :=
  inferInstanceAs (Decidable (_ ∧ _))

/-- Both codes have nothing behind their ends, so only the indices before them have to
be looked at. -/
theorem differsOnlyIn_iff :
    DiffersOnlyIn style chunks code other ↔
      (∀ span ∈ chunks, IsChunkAt style code span) ∧ chunks.Pairwise Span.Disjoint ∧
        ∀ index < max code.length other.length, code[index]? ≠ other[index]? →
          ∃ span ∈ chunks, span.Covers index := by
  constructor
  · rintro ⟨chunk, disjoint, covered⟩
    exact ⟨chunk, disjoint, fun index _ => covered index⟩
  · rintro ⟨chunk, disjoint, covered⟩
    refine ⟨chunk, disjoint, fun index differs => covered index ?_ differs⟩
    by_contra beyond
    rw [Nat.not_lt] at beyond
    apply differs
    rw [List.getElem?_eq_none (by omega), List.getElem?_eq_none (by omega)]

instance (style : Style) (chunks : List Span) (code other : Bytes) :
    Decidable (DiffersOnlyIn style chunks code other) :=
  decidable_of_iff' _ differsOnlyIn_iff

theorem startsLast_iff (same : code.length = other.length) :
    StartsLast style code other span ↔
      ∀ index ∈ firstDifference? code other span.start, span.Covers index →
        chunkAround? style code (span.start + 1) index = none := by
  constructor
  · intro startsLast index difference covers
    apply chunkAround?_eq_none_iff.mpr
    intro nested chunk after nestedCovers
    have last :=
      startsLast index ((firstDifference?_eq_some_iff same).mp difference) covers
    exact absurd (last nested chunk nestedCovers) (Nat.not_le.mpr after)
  · intro none index difference covers nested chunk nestedCovers
    have found := (firstDifference?_eq_some_iff same).mpr difference
    apply Nat.le_of_not_lt
    intro after
    exact chunkAround?_eq_none_iff.mp (none index found covers)
      nested chunk after nestedCovers

/-! ## Steps of the search -/

theorem FirstDifference.unique {first second : Nat}
    (difference : FirstDifference code other start first)
    (same : FirstDifference code other start second) : first = second := by
  rcases Nat.lt_trichotomy first second with before | equal | after
  · exact absurd (same.first first difference.reached before) difference.differs
  · exact equal
  · exact absurd (difference.first second same.reached after) same.differs

/-- The first difference after a place is also the first one after every later place
before it. -/
theorem FirstDifference.from_later {later : Nat}
    (difference : FirstDifference code other start index) (after : start ≤ later)
    (reached : later ≤ index) : FirstDifference code other later index :=
  ⟨reached, difference.differs, fun earlier inside before =>
    difference.first earlier (Nat.le_trans after inside) before⟩

theorem LastChunkAround.unique {first second : Span}
    (around : LastChunkAround style code lowest index first)
    (same : LastChunkAround style code lowest index second) : first = second :=
  Option.some.inj (around.chunkAround?.symm.trans same.chunkAround?)

/-- What the search takes starts last, since a chunk that it did not look for starts
even earlier. -/
theorem LastChunkAround.startsLast (around : LastChunkAround style code start index span)
    (difference : FirstDifference code other start index) :
    StartsLast style code other span := by
  intro first firstDifference _ nested chunk covers
  have here := difference.from_later around.above around.covers.1
  cases firstDifference.unique here
  rcases Nat.lt_or_ge nested.start start with before | after
  · exact Nat.le_trans (Nat.le_of_lt before) around.above
  · exact around.last nested chunk after covers

/-- A chunk around the next difference is what the search takes, if it starts last. -/
theorem StartsLast.lastChunkAround (startsLast : StartsLast style code other span)
    (difference : FirstDifference code other start index)
    (chunk : IsChunkAt style code span)
    (after : start ≤ span.start) (covers : span.Covers index) :
    LastChunkAround style code start index span :=
  ⟨chunk, after, covers, fun nested isChunk _ around =>
    startsLast index (difference.from_later after covers.1) covers nested isChunk around⟩

theorem Located.startsLast (located : Located style code other start spans stop) :
    ∀ span ∈ spans, StartsLast style code other span := by
  induction located with
  | done start => exact nofun
  | next difference around later induction =>
      exact List.forall_mem_cons.mpr ⟨around.startsLast difference, induction⟩

/-! ## Runs along given chunks -/

/-- The place is not within a chunk that still has a difference. -/
def Boundary (chunks : List Span) (code other : Bytes) (start : Nat) : Prop :=
  ∀ span ∈ chunks, ∀ index, start ≤ index → span.Covers index →
    code[index]? ≠ other[index]? →
    start ≤ span.start

theorem boundary_zero (chunks : List Span) (code other : Bytes) :
    Boundary chunks code other 0 :=
  fun _ _ _ _ _ _ => Nat.zero_le _

theorem DiffersOnlyIn.eq_of_covers {found : Span}
    (only : DiffersOnlyIn style chunks code other)
    (member : span ∈ chunks) (covers : span.Covers index) (foundMember : found ∈ chunks)
    (foundCovers : found.Covers index) : found = span := by
  have symmetric : Std.Symm Span.Disjoint := ⟨fun _ _ => Span.Disjoint.symm⟩
  by_contra different
  exact only.disjoint.forall foundMember member different index foundCovers covers

/-- A chunk that is found ends at a boundary, since the chunks share no byte. -/
theorem DiffersOnlyIn.boundary_stop (only : DiffersOnlyIn style chunks code other)
    (member : span ∈ chunks) (covers : span.Covers index) :
    Boundary chunks code other span.stop := by
  intro left leftMember place after reaches _
  by_contra within
  rw [Nat.not_le] at within
  have shared : span.Covers (max index left.start) ∧
      left.Covers (max index left.start) := by
    simp only [Span.Covers] at covers reaches ⊢
    omega
  cases only.eq_of_covers member shared.1 leftMember shared.2
  exact Nat.not_lt.mpr after reaches.2

/-- From a boundary the search takes the given chunk around the next difference. -/
theorem DiffersOnlyIn.chunk_at (only : DiffersOnlyIn style chunks code other)
    (startsLast : ∀ span ∈ chunks, StartsLast style code other span)
    (boundary : Boundary chunks code other start)
    (difference : FirstDifference code other start index) :
    ∃ span ∈ chunks, LastChunkAround style code start index span := by
  rcases only.covered index difference.differs with ⟨span, member, covers⟩
  have after := boundary span member index difference.reached covers difference.differs
  exact ⟨span, member,
    (startsLast span member).lastChunkAround difference (only.chunk span member)
    after covers⟩

theorem Located.given (located : Located style code other start spans stop)
    (only : DiffersOnlyIn style chunks code other)
    (startsLast : ∀ span ∈ chunks, StartsLast style code other span)
    (boundary : Boundary chunks code other start) :
    (∀ span ∈ spans, span ∈ chunks) ∧ Boundary chunks code other stop := by
  induction located with
  | done start => exact ⟨nofun, boundary⟩
  | next difference around later induction =>
      rcases only.chunk_at startsLast boundary difference with ⟨span, member, given⟩
      cases around.unique given
      rcases induction (only.boundary_stop member around.covers) with ⟨members, atStop⟩
      exact ⟨List.forall_mem_cons.mpr ⟨member, members⟩, atStop⟩

/-- Every given chunk with a difference is found, since no difference is left outside of
those found. -/
theorem Located.mem_of_hasDifference (located : Located style code other 0 spans stop)
    (only : DiffersOnlyIn style chunks code other) (given : ∀ span ∈ spans, span ∈ chunks)
    (sameAfter : ∀ index, stop ≤ index → code[index]? = other[index]?)
    (member : span ∈ chunks) (differs : HasDifference code other span) :
    span ∈ spans := by
  rcases differs with ⟨index, covers, different⟩
  have passed : index < stop :=
    Nat.lt_of_not_le fun after => different (sameAfter index after)
  have found : ∃ found ∈ spans, found.Covers index := by
    by_contra outside
    apply different
    apply located.same_outside (Nat.zero_le _) passed
    exact fun span member covers => outside ⟨span, member, covers⟩
  rcases found with ⟨found, foundMember, foundCovers⟩
  cases only.eq_of_covers member covers (given found foundMember) foundCovers
  exact foundMember

/-! ## What is found -/

/-- The entries are the given chunks with a difference. -/
def AreThoseWithDifference (chunks : List Span) (code other : Bytes)
    (entries : PlacedChunks) : Prop :=
  ∀ chunk, (∃ key, entries.get? key = some chunk) ↔
    chunk.span ∈ chunks ∧ chunk.value = code.slice chunk.span ∧
    HasDifference code other chunk.span

theorem exists_get?_numbered_iff {placed : List PlacedChunk} {chunk : PlacedChunk} :
    (∃ key, (numbered placed).get? key = some chunk) ↔ chunk ∈ placed := by
  rw [List.mem_iff_getElem?]
  constructor
  · rintro ⟨key, found⟩
    rcases get?_numbered.mp found with ⟨position, here, _⟩
    exact ⟨position, here⟩
  · rintro ⟨position, here⟩
    exact ⟨_, get?_numbered.mpr ⟨position, here, rfl⟩⟩

/-- A chunk of a code is known by its span and by what the code has there. -/
theorem Located.mem_placedChunk_iff (located : Located style code other start spans stop)
    (small : code.length ≤ UInt32.size) {chunk : PlacedChunk} :
    chunk ∈ spans.map (placedChunk code) ↔
      chunk.span ∈ spans ∧ chunk.value = code.slice chunk.span := by
  have placed := located.span_placedChunk small
  constructor
  · intro member
    rcases List.mem_map.mp member with ⟨span, spanMember, rfl⟩
    rw [placed span spanMember]
    exact ⟨spanMember, rfl⟩
  · rintro ⟨member, value⟩
    apply List.mem_map.mpr ⟨chunk.span, member, ?_⟩
    rw [placedChunk, ← value, PlacedChunk.span, UInt32.ofNat_toNat]

theorem locate_of_same_length (same : code.length = other.length) :
    locate style code other =
      (locateFrom style code other 0).map fun spans =>
        numbered (spans.map (placedChunk code)) := by
  rw [locate, if_neg (not_not_intro same)]
  cases locateFrom style code other 0 with
  | error failure => rfl
  | ok spans => rfl

/-- The search has found all chunks with a difference if none of them has a later start
around its first difference. -/
theorem DiffersOnlyIn.locate_of_startsLast (only : DiffersOnlyIn style chunks code other)
    (same : code.length = other.length) (small : code.length ≤ UInt32.size)
    (startsLast : ∀ span ∈ chunks, StartsLast style code other span) :
    ∃ entries, locate style code other = .ok entries ∧
      AreThoseWithDifference chunks code other entries := by
  have boundary := boundary_zero chunks code other
  have ends : Ends style code other 0 (locateFrom style code other 0) :=
    locateFrom_ends same 0
  rw [locate_of_same_length same]
  generalize locateFrom style code other 0 = outcome at ends ⊢
  cases ends with
  | stuck located difference uncovered =>
      have atStop := (located.given only startsLast boundary).2
      rcases only.chunk_at startsLast atStop difference with ⟨span, _, around⟩
      exact absurd around.covers (uncovered span around.chunk around.above)
  | @covered spans stop located sameAfter =>
      refine ⟨_, rfl, fun chunk => ?_⟩
      have given := (located.given only startsLast boundary).1
      rw [exists_get?_numbered_iff, located.mem_placedChunk_iff small]
      constructor
      · rintro ⟨member, value⟩
        exact ⟨given _ member, value, (located.chunks _ member).2⟩
      · rintro ⟨member, value, differs⟩
        exact ⟨located.mem_of_hasDifference only given sameAfter member differs, value⟩

/-- What the search has found starts last. -/
theorem startsLast_of_locate (same : code.length = other.length)
    (small : code.length ≤ UInt32.size)
    {entries : PlacedChunks} (found : locate style code other = .ok entries)
    {key : String} {chunk : PlacedChunk} (entry : entries.get? key = some chunk) :
    StartsLast style code other chunk.span := by
  have ends : Ends style code other 0 (locateFrom style code other 0) :=
    locateFrom_ends same 0
  rw [locate_of_same_length same] at found
  generalize locateFrom style code other 0 = outcome at ends found
  cases ends with
  | stuck located difference uncovered => cases found
  | covered located sameAfter =>
      cases found
      have member := exists_get?_numbered_iff.mp ⟨key, entry⟩
      exact located.startsLast _ ((located.mem_placedChunk_iff small).mp member).1

/-- The search finds the given chunks that have a difference, and no others, if and only
if no chunk within one of them starts after it and is around its first difference. -/
theorem locate_given_chunks_iff (same : code.length = other.length)
    (small : code.length ≤ UInt32.size) (only : DiffersOnlyIn style chunks code other) :
    (∃ entries, locate style code other = .ok entries ∧
      AreThoseWithDifference chunks code other entries) ↔
    ∀ span ∈ chunks, StartsLast style code other span := by
  constructor
  · rintro ⟨entries, found, those⟩ span member index difference covers
    have differs : HasDifference code other span := ⟨index, covers, difference.differs⟩
    have placed := (only.chunk span member).span_placedChunk small
    have entry : ∃ key, entries.get? key = some (placedChunk code span) := by
      apply (those _).mpr
      rw [placed]
      exact ⟨member, rfl, differs⟩
    rcases entry with ⟨key, entry⟩
    have startsLast := startsLast_of_locate same small found entry
    rw [placed] at startsLast
    exact startsLast index difference covers
  · exact only.locate_of_startsLast same small

/-- Two chunks with a version in each. -/
def codeOfVersions (first second : UInt8) : Bytes :=
  codeOfVersion first ++ codeOfVersion second

theorem locate_given_versions :
    ∃ entries, locate .vyperBefore035 (codeOfVersions 4 4) (codeOfVersions 4 3) =
      .ok entries ∧
      AreThoseWithDifference [⟨1, 11⟩, ⟨13, 11⟩] (codeOfVersions 4 4) (codeOfVersions 4 3)
        entries := by
  have same : (codeOfVersions 4 4).length = (codeOfVersions 4 3).length := rfl
  have only : DiffersOnlyIn .vyperBefore035 [⟨1, 11⟩, ⟨13, 11⟩] (codeOfVersions 4 4)
      (codeOfVersions 4 3) := by decide +kernel
  apply (locate_given_chunks_iff same (by decide) only).mpr
  simp only [startsLast_iff same]
  decide +kernel

/-- A byte of code, and metadata of two entries behind it. The second one is a version,
and the hash in the first one is itself metadata with that version. -/
def codeOfNestedVersion (patch : UInt8) : Bytes :=
  [0xFE, 0xA2, 0x64, 0x69, 0x70, 0x66, 0x73, 0x4C,
    0xA1, 0x64, 0x73, 0x6F, 0x6C, 0x63, 0x43, 0, 8, patch, 0, 0x0A,
    0x64, 0x73, 0x6F, 0x6C, 0x63, 0x43, 0, 8, patch, 0, 0x1C]

theorem locate_codeOfNestedVersion :
    locate .solidity (codeOfNestedVersion 15) (codeOfNestedVersion 14) =
      .error (.auxdataNotFound 28) := by
  have first : firstDifference? (codeOfNestedVersion 15) (codeOfNestedVersion 14) 0 =
      some 17 := by
    decide
  have around : chunkAround? .solidity (codeOfNestedVersion 15) 0 17 = some ⟨8, 12⟩ := by
    decide +kernel
  have second : firstDifference? (codeOfNestedVersion 15) (codeOfNestedVersion 14)
      (Span.mk 8 12).stop = some 28 := by decide
  have missing :
      chunkAround? .solidity (codeOfNestedVersion 15) (Span.mk 8 12).stop 28 = none := by
    decide +kernel
  rw [locate, if_neg (by decide), locateFrom_of_around first around,
    locateFrom_of_missing second missing]
  rfl

/-- The chunk around both differences is not found, since the chunk within it starts
later. -/
theorem not_locate_given_chunks :
    ¬ ∀ (style : Style) (chunks : List Span) (code other : Bytes),
      code.length = other.length →
      code.length ≤ UInt32.size → DiffersOnlyIn style chunks code other →
      ∃ entries, locate style code other = .ok entries ∧
        AreThoseWithDifference chunks code other entries := by
  intro all
  have only : DiffersOnlyIn .solidity [⟨1, 30⟩] (codeOfNestedVersion 15)
      (codeOfNestedVersion 14) := by
    decide +kernel
  have found :=
    all .solidity [⟨1, 30⟩] (codeOfNestedVersion 15) (codeOfNestedVersion 14) rfl
    (by decide) only
  rcases found with ⟨entries, found, _⟩
  rw [locate_codeOfNestedVersion] at found
  cases found

end ContractCode.Auxdata
