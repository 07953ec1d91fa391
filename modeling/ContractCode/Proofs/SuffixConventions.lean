import ContractCode.Proofs.ChunkHeads
import ContractCode.Proofs.VyperGrammar

/-! # Two conventions for the length of Vyper metadata

The number behind Vyper metadata counts itself since some version, and before that it
does not. So the two styles look for metadata in front of the same two bytes, but one of
them starts two bytes lower. Both read the same grammar, which hardly ever allows both:
only the array without a hash can lose two bytes and still be metadata, and only if
these are its head and the first byte of a long runtime code length.
-/

namespace ContractCode

/-! ## First digits -/

namespace BigEndian

theorem decode_cons (digit : UInt8) (digits : Bytes) :
    decode (digit :: digits) = digit.toNat * bound digits.length + decode digits := by
  induction digits using List.reverseRecOn with
  | nil => simp [decode, bound]
  | append_singleton digits last induction =>
      rw [← List.cons_append, decode_concat, decode_concat, induction, List.length_append,
        List.length_singleton, bound, Nat.add_mul, Nat.mul_assoc, Nat.add_assoc]

/-- No digit of a number is greater than the number. -/
theorem toNat_le_of_mem_encode {width number : Nat} {digit : UInt8}
    (member : digit ∈ encode width number) : digit.toNat ≤ number := by
  induction width generalizing number with
  | zero => cases member
  | succ width induction =>
      rcases List.mem_append.mp member with higher | lowest
      · exact Nat.le_trans (induction higher) (Nat.div_le_self number 256)
      · rw [List.mem_singleton.mp lowest, UInt8.toNat_ofNat']
        exact Nat.mod_le number 256

theorem bound_le_bound {width other : Nat} (wider : width ≤ other) :
    bound width ≤ bound other := by
  induction wider with
  | refl => exact Nat.le_refl _
  | step _ induction =>
      rw [bound]
      omega

/-- The first of at least two digits counts at least 256. -/
theorem le_of_encode_eq_cons {width number : Nat} {digit : UInt8} {digits : Bytes}
    (fits : number < bound width) (long : 2 ≤ width)
    (written : encode width number = digit :: digits) :
    digit.toNat * 256 ≤ number := by
  have length : digits.length + 1 = width := by
    rw [← length_encode width number, written, List.length_cons]
  have value : digit.toNat * bound digits.length + decode digits = number := by
    rw [← decode_cons, ← written, decode_encode fits]
  have place : 256 ≤ bound digits.length :=
    bound_le_bound (show 1 ≤ digits.length by omega)
  have higher : digit.toNat * 256 ≤ digit.toNat * bound digits.length :=
    Nat.mul_le_mul_left _ place
  omega

end BigEndian

namespace Cbor

variable {major otherMajor argument otherArgument : Nat}
  {head other rest otherRest bytes : Bytes}

/-! ## Bytes that head no container -/

theorem not_headsContainer_of_lt {byte : UInt8} (small : byte.toNat < 128) :
    ¬ HeadsContainer byte := by
  simp only [HeadsContainer, majorOf, mapType, arrayType]
  omega

/-- The first digits of an item: no byte after the first one heads a container. -/
def Opens (opening : Bytes) : Prop :=
  ∃ first others, opening = first :: others ∧ ∀ byte ∈ others, byte.toNat < 128

theorem Opens.append (opens : Opens bytes) (small : ∀ byte ∈ other, byte.toNat < 128) :
    Opens (bytes ++ other) := by
  rcases opens with ⟨first, others, rfl, before⟩
  exact ⟨first, others ++ other, rfl, List.forall_mem_append.mpr ⟨before, small⟩⟩

theorem Opens.not_headsContainer {opening : Bytes} (opens : Opens opening)
    (start : opening <+: bytes)
    {index : Nat} {byte : UInt8} (later : 0 < index) (inside : index < opening.length)
    (found : bytes[index]? = some byte) : ¬ HeadsContainer byte := by
  rcases opens with ⟨first, others, rfl, small⟩
  rcases start with ⟨rest, rfl⟩
  rcases Nat.exists_eq_succ_of_ne_zero (Nat.ne_of_gt later) with ⟨place, rfl⟩
  rw [List.getElem?_append_left inside, List.getElem?_cons_succ] at found
  exact not_headsContainer_of_lt (small byte (List.mem_of_getElem? found))

theorem IsHead.opens (isHead : IsHead major argument head) (small : argument < 128) :
    Opens head := by
  rcases isHead with ⟨form, _, rfl⟩
  refine ⟨_, _, rfl, ?_⟩
  intro byte member
  exact Nat.lt_of_le_of_lt (BigEndian.toNat_le_of_mem_encode member) small

/-- The head of an item that is no container, tag or simple value consists of small
bytes if its argument is small. -/
theorem IsHead.forall_lt (isHead : IsHead major argument head) (low : major < 4)
    (small : argument < 128) : ∀ byte ∈ head, byte.toNat < 128 := by
  rcases isHead with ⟨form, fits, rfl⟩
  have info_lt := HeadForm.info_lt fits
  rw [HeadForm.encode]
  refine List.forall_mem_cons.mpr ⟨?_, ?_⟩
  · rw [toNat_head (by omega) (by omega)]
    omega
  · intro byte member
    exact Nat.lt_of_le_of_lt (BigEndian.toNat_le_of_mem_encode member) small

theorem IsHead.length_pos (isHead : IsHead major argument head) : 0 < head.length := by
  rcases isHead with ⟨form, _, rfl⟩
  exact Nat.succ_pos _

/-- The first byte of a head is at least that of the shortest form. -/
theorem IsHead.le_first (isHead : IsHead major argument head) (major_lt : major < 8)
    (short : argument < 24) :
    ∃ first tail, head = first :: tail ∧ major * 32 + argument ≤ first.toNat := by
  rcases isHead with ⟨form, fits, rfl⟩
  have info_lt := HeadForm.info_lt fits
  refine ⟨_, _, rfl, ?_⟩
  rw [toNat_head major_lt (by omega)]
  cases form with
  | short => exact Nat.le_refl _
  | oneByte | twoBytes | fourBytes | eightBytes =>
      simp only [HeadForm.info]
      omega

/-! ## Heads at the start of the same bytes -/

theorem IsHead.append_inj (isHead : IsHead major argument head)
    (isOther : IsHead major otherArgument other) (major_lt : major < 8)
    (same : head ++ rest = other ++ otherRest) :
    argument = otherArgument ∧ rest = otherRest := by
  have read := isHead.definite?_append major_lt rest
  rw [same, isOther.definite?_append major_lt otherRest] at read
  cases read
  exact ⟨rfl, rfl⟩

theorem IsHead.append_ne (isHead : IsHead major argument head)
    (isOther : IsHead otherMajor otherArgument other) (major_lt : major < 8)
    (other_lt : otherMajor < 8) (different : major ≠ otherMajor) :
    head ++ rest ≠ other ++ otherRest := by
  rcases isHead.exists_cons major_lt with ⟨first, tail, rfl, isMajor, _⟩
  rcases isOther.exists_cons other_lt with ⟨otherFirst, otherTail, rfl, isOtherMajor, _⟩
  intro same
  cases List.head_eq_of_cons_eq same
  exact different (isMajor.symm.trans isOtherMajor)

end Cbor

namespace VyperAuxdata

variable {auxdata other : VyperAuxdata} {version : Version} {layout : CodeLayout}
  {first second : UInt8} {bytes shorter rest : Bytes}

/-! ## How metadata starts -/

theorem IsVersionMap.exists_opening (map : IsVersionMap version bytes) :
    ∃ opening, opening <+: bytes ∧ Cbor.Opens opening ∧ 3 ≤ opening.length := by
  rcases map with ⟨map, ⟨keyHead, isKeyHead, rfl⟩, _, _, _, _⟩
  have key : ∀ byte ∈ keyHead ++ compilerKey, byte.toNat < 128 :=
    List.forall_mem_append.mpr
      ⟨isKeyHead.forall_lt (by decide) (by decide), by decide +kernel⟩
  refine ⟨_, ?_, (map.opens (by decide)).append key, ?_⟩
  · simp only [List.append_assoc, List.prefix_append_right_inj, List.prefix_append]
  · have mapFilled := map.length_pos
    have keyFilled := isKeyHead.length_pos
    have keyLength : compilerKey.length = 5 := rfl
    simp only [List.length_append]
    omega

theorem IsLayout.exists_cons (items : IsLayout layout bytes) :
    ∃ head tail, bytes = head :: tail ∧ head.toNat < 128 := by
  rcases items with ⟨runtime, _, _, _⟩
  rcases runtime.exists_cons (by decide) with ⟨head, tail, rfl, isUnsigned, _⟩
  refine ⟨head, _, rfl, ?_⟩
  simp only [Cbor.majorOf, Cbor.unsignedType] at isUnsigned
  omega

/-- Metadata starts with three bytes of which only the first one heads a container, or
it is an array without a hash whose head is one byte. -/
theorem IsEncoding.exists_opening (encoding : IsEncoding auxdata bytes) :
    (∃ opening, opening <+: bytes ∧ Cbor.Opens opening ∧ 3 ≤ opening.length) ∨
      ∃ layout version layoutBytes versionBytes, auxdata = ⟨none, some layout, version⟩ ∧
        bytes = 0x84 :: (layoutBytes ++ versionBytes) ∧ IsLayout layout layoutBytes := by
  cases encoding with
  | version map => exact .inl map.exists_opening
  | layout array items map =>
      rename_i layout version arrayBytes layoutBytes versionBytes
      by_cases long : 2 ≤ arrayBytes.length
      · left
        rcases items.exists_cons with ⟨head, tail, rfl, small⟩
        refine ⟨arrayBytes ++ [head], ?_,
          (array.opens (by decide)).append (List.forall_mem_singleton.mpr small), ?_⟩
        · simp only [List.append_assoc, List.prefix_append_right_inj, List.cons_append,
            List.cons_prefix_cons, List.nil_prefix, true_and]
        · rw [List.length_append, List.length_singleton]
          omega
      · right
        rcases array with ⟨form, _, rfl⟩
        cases form with
        | short => exact ⟨layout, version, layoutBytes, versionBytes, rfl, rfl, items⟩
        | oneByte | twoBytes | fourBytes | eightBytes => exact absurd (by decide) long
  | hashed array length string items map =>
      left
      rcases string with ⟨hashHead, isHashHead, rfl⟩
      rw [length] at isHashHead
      refine ⟨_, ?_,
        (array.opens (by decide)).append
          (isHashHead.forall_lt (by decide) (by decide)), ?_⟩
      · simp only [List.append_assoc, List.prefix_append_right_inj, List.prefix_append]
      · -- The length of a hash does not fit into the first byte of its head.
        have hashLong : 2 ≤ hashHead.length := by
          rcases isHashHead with ⟨form, fits, rfl⟩
          cases form with
          | short => exact absurd fits (by decide)
          | oneByte | twoBytes | fourBytes | eightBytes => decide
        have filled := array.length_pos
        rw [List.length_append]
        omega

/-- No metadata starts at the second byte of other metadata. -/
theorem IsEncoding.not_headsContainer_second
    (encoding : IsEncoding auxdata (first :: second :: rest)) :
    ¬ Cbor.HeadsContainer second := by
  rcases encoding.exists_opening with
    ⟨opening, start, opens, long⟩ |
    ⟨layout, version, layoutBytes, versionBytes, rfl, whole, items⟩
  · exact opens.not_headsContainer start (by decide) (Nat.lt_of_succ_lt long) rfl
  · rcases items.exists_cons with ⟨head, tail, rfl, small⟩
    cases whole
    exact Cbor.not_headsContainer_of_lt small

/-- The first byte of metadata is at least that of the shortest array. -/
theorem IsEncoding.le_first (encoding : IsEncoding auxdata bytes) :
    ∃ first tail, bytes = first :: tail ∧ 0x84 ≤ first.toNat := by
  cases encoding with
  | version map =>
      rcases map with ⟨map, _, _, _, _, _⟩
      rcases map.le_first (by decide) (by decide) with ⟨first, tail, rfl, least⟩
      exact ⟨first, _, rfl, Nat.le_trans (by decide) least⟩
  | layout array items map | hashed array length string items map =>
      rcases array.le_first (by decide) (by decide) with ⟨first, tail, rfl, least⟩
      exact ⟨first, _, rfl, Nat.le_trans (by decide) least⟩

/-- A number is large if metadata starts at its digits. -/
theorem IsEncoding.le_of_digits {width number : Nat}
    (encoding : IsEncoding auxdata (BigEndian.encode width number ++ rest))
    (fits : number < BigEndian.bound width) (long : 2 ≤ width) : 0x8400 ≤ number := by
  rcases encoding.le_first with ⟨first, tail, starts, least⟩
  cases digits : BigEndian.encode width number with
  | nil =>
      have length := BigEndian.length_encode width number
      rw [digits] at length
      cases length
      cases long
  | cons digit others =>
      rw [digits] at starts
      cases starts
      have value := BigEndian.le_of_encode_eq_cons fits long digits
      omega

/-- The list of the section lengths, with what follows it, is no metadata: after the
head of an array there is neither a hash nor a second array that it could be read as. -/
theorem not_isEncoding_sections {numbers : List Nat} {arrayBytes sectionsBytes : Bytes}
    (array : Cbor.IsHead Cbor.arrayType numbers.length arrayBytes)
    (sections : IsNumbers numbers sectionsBytes) :
    ¬ IsEncoding auxdata (arrayBytes ++ (sectionsBytes ++ rest)) := by
  intro encoding
  generalize whole : arrayBytes ++ (sectionsBytes ++ rest) = bytes at encoding
  cases encoding with
  | version map =>
      rcases map with ⟨map, _, _, _, _, _⟩
      simp only [List.append_assoc] at whole
      exact array.append_ne map (by decide) (by decide) (by decide) whole
  | layout other items map =>
      rcases items with ⟨runtime, list, _, _⟩
      simp only [List.append_assoc] at whole
      rcases array.append_inj other (by decide) whole with ⟨four, afterHead⟩
      rcases sections with _ | ⟨firstNumber, _ | ⟨secondNumber, _⟩⟩
      · cases four
      · cases four
      · simp only [List.append_assoc] at afterHead
        have afterFirst := (firstNumber.append_inj runtime (by decide) afterHead).2
        exact secondNumber.append_ne list (by decide) (by decide) (by decide) afterFirst
  | hashed other length string items map =>
      rcases string with ⟨hashHead, isHashHead, rfl⟩
      simp only [List.append_assoc] at whole
      rcases array.append_inj other (by decide) whole with ⟨five, afterHead⟩
      rcases sections with _ | ⟨firstNumber, _⟩
      · cases five
      · simp only [List.append_assoc] at afterHead
        exact firstNumber.append_ne isHashHead (by decide) (by decide)
          (by decide) afterHead

/-! ## Metadata in metadata -/

/-- Metadata that stays metadata without its first two bytes is an array without a hash.
These bytes are its head and the first byte of a runtime code length, whose digits are
where the other metadata starts. -/
theorem IsEncoding.two_bytes_lower
    (encoding : IsEncoding auxdata (first :: second :: shorter))
    (isShorter : IsEncoding other shorter) :
    first = 0x84 ∧ (second = 0x19 ∨ second = 0x1A ∨ second = 0x1B) ∧
      ∃ layout version, auxdata = ⟨none, some layout, version⟩ ∧
        0x8400 ≤ layout.runtimeCodeLength := by
  rcases encoding.exists_opening with
    ⟨opening, start, opens, long⟩ |
    ⟨layout, version, layoutBytes, versionBytes, rfl, whole, items⟩
  · rcases isShorter.exists_head with ⟨head, tail, rfl, container⟩
    exact absurd container (opens.not_headsContainer start (by decide) long rfl)
  · rcases items with ⟨⟨form, fits, rfl⟩, array, sections, immutables⟩
    rename_i arrayBytes sectionsBytes immutablesBytes
    simp only [Cbor.HeadForm.encode, List.append_assoc, List.cons_append,
      List.cons.injEq] at whole
    rcases whole with ⟨rfl, rfl, rfl⟩
    cases form with
    | short =>
        have isList : IsEncoding other
            (arrayBytes ++ (sectionsBytes ++ (immutablesBytes ++ versionBytes))) :=
          isShorter
        exact absurd isList (not_isEncoding_sections array sections)
    | oneByte =>
        rcases array.exists_cons (by decide) with ⟨head, tail, rfl, isArray, _⟩
        exact absurd (.inr isArray) isShorter.not_headsContainer_second
    | twoBytes =>
        exact ⟨rfl, .inl rfl, layout, version, rfl,
          isShorter.le_of_digits fits (by decide)⟩
    | fourBytes =>
        exact ⟨rfl, .inr (.inl rfl), layout, version, rfl,
          isShorter.le_of_digits fits (by decide)⟩
    | eightBytes =>
        exact ⟨rfl, .inr (.inr rfl), layout, version, rfl,
          isShorter.le_of_digits fits (by decide)⟩

end VyperAuxdata

namespace Auxdata

variable {style : Style} {code chunk longer shorter : Bytes}

/-! ## Chunks in chunks -/

/-- In front of the shorter chunk the longer one has the head of an array of four items,
which has no hash, and the first byte of a long runtime code length. -/
inductive IsAmbiguous : Bytes → Bytes → Prop
  | mk {second : UInt8} {shorter : Bytes} {layout : CodeLayout} {version : Version}
      (form : second = 0x19 ∨ second = 0x1A ∨ second = 0x1B)
      (decoded : VyperAuxdata.decode
        (metadataOfChunk .vyperBefore0310 (0x84 :: second :: shorter)) =
        .ok (⟨none, some layout, version⟩, shorter.length))
      (long : 0x8400 ≤ layout.runtimeCodeLength) :
      IsAmbiguous (0x84 :: second :: shorter) shorter

/-- The number behind a chunk at the end of the code, and the size that the style makes
of it. -/
theorem chunkSize_of_split (suffix : style.hasSuffix = true)
    (found : (split style code).chunk = some chunk) :
    style.chunkSize (encodedLength code) = chunk.length ∧ suffixSize ≤ chunk.length := by
  rcases chunk_of_split found with ⟨isChunk, shorter, atEnd⟩
  rcases (isChunk_iff_of_suffix suffix).mp isChunk with ⟨long, size, _⟩
  have joined := List.take_append_drop (code.length - chunk.length) code
  rw [← atEnd] at joined
  have number := encodedLength_append (code.take (code.length - chunk.length)) long
  rw [joined] at number
  exact ⟨number ▸ size, long⟩

/-- Chunks that both conventions find at the end of the same code differ by two bytes. -/
theorem drop_of_splits (foundLonger : (split .vyperBefore0310 code).chunk = some longer)
    (foundShorter : (split .vyper code).chunk = some shorter) :
    longer.length = shorter.length + 2 ∧ longer.drop 2 = shorter := by
  have longerSize : encodedLength code + suffixSize = longer.length :=
    (chunkSize_of_split rfl foundLonger).1
  have shorterSize : encodedLength code = shorter.length :=
    (chunkSize_of_split rfl foundShorter).1
  have length : longer.length = shorter.length + 2 := by
    rw [← longerSize, shorterSize]
    rfl
  rcases chunk_of_split foundLonger with ⟨_, fits, longerAtEnd⟩
  rcases chunk_of_split foundShorter with ⟨_, _, shorterAtEnd⟩
  refine ⟨length, ?_⟩
  rw [longerAtEnd, List.drop_drop, shorterAtEnd]
  congr 1
  omega

theorem metadataOfChunk_cons_cons (first second : UInt8) (long : 2 ≤ shorter.length) :
    metadataOfChunk .vyperBefore0310 (first :: second :: shorter) =
      first :: second :: metadataOfChunk .vyper shorter := by
  rcases Nat.exists_eq_add_of_le' long with ⟨size, length⟩
  change (first :: second :: shorter).take (shorter.length + 2 - 2) =
    first :: second :: shorter.take (shorter.length - 2)
  rw [length]
  rfl

theorem isAmbiguous_of_splits
    (foundLonger : (split .vyperBefore0310 code).chunk = some longer)
    (foundShorter : (split .vyper code).chunk = some shorter) :
    IsAmbiguous longer shorter := by
  rcases drop_of_splits foundLonger foundShorter with ⟨length, dropped⟩
  have long : 2 ≤ shorter.length := (chunkSize_of_split rfl foundShorter).2
  rcases longer with _ | ⟨first, _ | ⟨second, rest⟩⟩
  · cases length
  · cases length
  · have same : rest = shorter := dropped
    subst same
    have isLonger := isMetadata_of_isChunk (chunk_of_split foundLonger).1
    have isShorter := isMetadata_of_isChunk (chunk_of_split foundShorter).1
    rcases decode_of_isMetadata (by decide) isLonger with ⟨auxdata, decoded⟩
    rcases decode_of_isMetadata (by decide) isShorter with ⟨other, decodedShorter⟩
    have encoding := (VyperAuxdata.decode_eq_ok_iff.mp decoded).2
    have shorterEncoding := (VyperAuxdata.decode_eq_ok_iff.mp decodedShorter).2
    rw [List.take_length] at encoding shorterEncoding
    have size : (metadataOfChunk .vyperBefore0310 (first :: second :: rest)).length =
        rest.length :=
      List.length_take_of_le (Nat.sub_le _ _)
    rw [size] at decoded
    rw [metadataOfChunk_cons_cons first second long] at encoding
    rcases encoding.two_bytes_lower shorterEncoding with
      ⟨rfl, form, layout, version, rfl, large⟩
    exact .mk form decoded large

/-! ## Both conventions -/

/-- At most one of the two conventions finds metadata, unless the chunk is ambiguous: at
the end of any code, and of execution code with a chunk of either of them behind it. -/
theorem exclusive_suffixes :
    (∀ code, (split .vyper code).chunk = none ∨
      (split .vyperBefore0310 code).chunk = none ∨
      ∃ longer shorter, IsAmbiguous longer shorter ∧
        (split .vyperBefore0310 code).chunk = some longer ∧
        (split .vyper code).chunk = some shorter) ∧
    (∀ execution chunk, execution ≠ [] → isChunk .vyper chunk = true →
      (split .vyperBefore0310 (execution ++ chunk)).chunk = none ∨
        ∃ longer, IsAmbiguous longer chunk ∧
          (split .vyperBefore0310 (execution ++ chunk)).chunk = some longer) ∧
    ∀ execution chunk, execution ≠ [] → isChunk .vyperBefore0310 chunk = true →
      (split .vyper (execution ++ chunk)).chunk = none ∨
        ∃ shorter, IsAmbiguous chunk shorter ∧
          (split .vyper (execution ++ chunk)).chunk = some shorter := by
  refine ⟨?_, ?_, ?_⟩
  · intro code
    cases foundShorter : (split .vyper code).chunk with
    | none => exact .inl rfl
    | some shorter =>
        cases foundLonger : (split .vyperBefore0310 code).chunk with
        | none => exact .inr (.inl rfl)
        | some longer =>
            have ambiguous := isAmbiguous_of_splits foundLonger foundShorter
            exact .inr (.inr ⟨longer, shorter, ambiguous, rfl, rfl⟩)
  · intro execution chunk nonempty isChunk
    have foundShorter : (split .vyper (execution ++ chunk)).chunk = some chunk :=
      congrArg Split.chunk (split_append_of_isChunk rfl isChunk nonempty)
    cases foundLonger : (split .vyperBefore0310 (execution ++ chunk)).chunk with
    | none => exact .inl rfl
    | some longer =>
        exact .inr ⟨longer, isAmbiguous_of_splits foundLonger foundShorter, rfl⟩
  · intro execution chunk nonempty isChunk
    have foundLonger : (split .vyperBefore0310 (execution ++ chunk)).chunk = some chunk :=
      congrArg Split.chunk (split_append_of_isChunk rfl isChunk nonempty)
    cases foundShorter : (split .vyper (execution ++ chunk)).chunk with
    | none => exact .inl rfl
    | some shorter =>
        exact .inr ⟨shorter, isAmbiguous_of_splits foundLonger foundShorter, rfl⟩

/-- Code that ends with metadata for a runtime code length of 0x8400. Without its first
two bytes that is metadata for a runtime code length of nought. -/
def ambiguousCode : Bytes :=
  [0x5F, 0x84, 0x19, 0x84, 0, 0x80, 0, 0xA1, 0x65, 0x76, 0x79, 0x70, 0x65, 0x72, 0x83, 0,
    3, 10, 0, 17]

/-- Both conventions may find metadata. -/
theorem not_exclusive_suffixes :
    ¬ ∀ code, (split .vyper code).chunk = none ∨
    (split .vyperBefore0310 code).chunk = none := by
  intro all
  exact absurd (all ambiguousCode) (by decide +kernel)

end Auxdata

end ContractCode
