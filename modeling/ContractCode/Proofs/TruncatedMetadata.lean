import ContractCode.Proofs.Following

/-! # Metadata that is cut short

Vyper metadata that stops before its end is refused because the input ends, wherever the
cut is: in a head, in its digits, in a text, in a hash, or between two items. No type,
length or key is taken for wrong, since every check that a reader makes is about bytes
that it has, and passes on them as it does on the whole.
-/

namespace ContractCode

/-- A reader that takes all of some bytes finds nothing in a beginning of them. -/
theorem ReadsAhead.eq_none_of_cut {read : Bytes → Option (α × Bytes)}
    {start missing : Bytes} {value : α}
    (reads : ReadsAhead read) (whole : read (start ++ missing) = Option.some (value, []))
    (cut : missing ≠ []) : read start = Option.none := by
  cases found : read start with
  | none => rfl
  | some pair =>
      have longer := reads.append found missing
      rw [whole] at longer
      have left := congrArg Prod.snd (Option.some.inj longer)
      exact absurd (List.append_eq_nil_iff.mp left.symm).2 cut

namespace VyperAuxdata

/-! ## With and without a hash -/

/-- The bytes are the hash of an array of so many items, which has one if there are
five. -/
inductive IsOptionalHash : Nat → Option Bytes → Bytes → Prop
  | without : IsOptionalHash 4 none []
  | hashed {hash bytes : Bytes} (length : hash.length = 32)
      (string : Cbor.IsString Cbor.byteStringType hash bytes) :
      IsOptionalHash 5 (some hash) bytes

/-- Metadata is the map alone, or an array that starts with a hash or without one. -/
inductive HasParts : VyperAuxdata → Bytes → Prop
  | version {version : Version} {bytes : Bytes} (map : IsVersionMap version bytes) :
      HasParts ⟨none, none, version⟩ bytes
  | sized {count : Nat} {hash : Option Bytes} {layout : CodeLayout} {version : Version}
      {arrayBytes hashBytes layoutBytes versionBytes : Bytes}
      (array : Cbor.IsHead Cbor.arrayType count arrayBytes)
      (optional : IsOptionalHash count hash hashBytes)
      (items : IsLayout layout layoutBytes) (map : IsVersionMap version versionBytes) :
      HasParts ⟨hash, some layout, version⟩
      (arrayBytes ++ (hashBytes ++ (layoutBytes ++ versionBytes)))

theorem IsEncoding.parts {auxdata : VyperAuxdata} {bytes : Bytes}
    (encoding : IsEncoding auxdata bytes) :
    HasParts auxdata bytes := by
  cases encoding with
  | version map => exact .version map
  | layout array items map =>
      rw [List.append_assoc]
      exact .sized array .without items map
  | hashed array length string items map =>
      simp only [List.append_assoc]
      exact .sized array (.hashed length string) items map

theorem readOptionalHash_reads {count : Nat} {hash : Option Bytes} {bytes : Bytes}
    (optional : IsOptionalHash count hash bytes) (rest : Bytes) :
    readOptionalHash count (bytes ++ rest) = .ok (hash, rest) := by
  cases optional with
  | without => rfl
  | hashed length string => exact readIntegrityHash_accepts.bind ⟨length, string⟩ _

/-! ## Cuts -/

/-- In every beginning of the bytes the reading fails, because the input ends. -/
def RunsOut (read : Bytes → Except DecodeError β) (bytes : Bytes) : Prop :=
  ∀ start missing, missing ≠ [] → start ++ missing = bytes →
    read start = .error .endOfInput

/-! ## Longer readings -/

section

variable {first : Bytes → Except DecodeError (α × Bytes)}
  {next : Bytes → α × Bytes → Except DecodeError β}
  {bytes others : Bytes} {value : α}

theorem runsOut_nil (read : Bytes → Except DecodeError β) : RunsOut read [] := by
  intro start missing cut joined
  exact absurd (List.append_eq_nil_iff.mp joined).2 cut

/-- A cut is in the bytes of the first step, or the first step reads them and the others
are cut. -/
theorem RunsOut.bind (reads : ∀ rest, first (bytes ++ rest) = .ok (value, rest))
    (runsOut : RunsOut first bytes)
    (later : ∀ input, RunsOut (fun rest => next input (value, rest)) others) :
    RunsOut (fun input => first input >>= next input) (bytes ++ others) := by
  intro start missing cut joined
  have inOthers : ∀ inner, start = bytes ++ inner → inner ++ missing = others →
      first start >>= next start = .error .endOfInput := by
    rintro inner rfl rest
    rw [reads]
    exact later _ inner missing cut rest
  rcases List.append_eq_append_iff.mp joined with
    ⟨between, whole, rest⟩ | ⟨inner, whole, rest⟩
  · by_cases complete : between = []
    · subst complete
      rw [List.append_nil] at whole
      exact inOthers [] (by rw [List.append_nil, whole]) rest
    · dsimp only
      rw [runsOut start between complete whole.symm]
      rfl
  · exact inOthers inner whole rest.symm

theorem RunsOut.last (runsOut : RunsOut first bytes) :
    RunsOut (fun input => first input >>= next input) bytes := by
  intro start missing cut joined
  dsimp only
  rw [runsOut start missing cut joined]
  rfl

end

/-! ## Checks of a type -/

section

variable {major argument : Nat} {type : Cbor.ItemType} {head others start missing : Bytes}

/-- The first byte tells the type, and every beginning that is not empty has it. -/
theorem type_of_start (isHead : Cbor.IsHead major argument head)
    (sized : (major, type) ∈ Cbor.ItemType.sizedTypes)
    (joined : start ++ missing = head ++ others)
    (nonempty : start ≠ []) : Cbor.ItemType.of? start = some type := by
  have major_lt := Cbor.ItemType.major_lt_of_mem_sizedTypes sized
  rcases isHead.exists_cons major_lt with ⟨first, tail, rfl, rfl, definite⟩
  cases start with
  | nil => exact absurd rfl nonempty
  | cons other rest =>
      cases (List.cons.inj joined).1
      exact Cbor.ItemType.of?_of_mem_sizedTypes sized definite

theorem RunsOut.ofType {next : Cbor.ItemType → Bytes → Except DecodeError β}
    (isHead : Cbor.IsHead major argument head)
    (sized : (major, type) ∈ Cbor.ItemType.sizedTypes)
    (later : RunsOut (next type) (head ++ others)) :
    RunsOut (fun input =>
      orEnd (Cbor.ItemType.of? input) >>= fun found => next found input)
      (head ++ others) := by
  intro start missing cut joined
  dsimp only
  by_cases empty : start = []
  · subst empty
    rfl
  · rw [type_of_start isHead sized joined empty]
    exact later start missing cut joined

theorem RunsOut.afterType {field : Field} {next : Bytes → Except DecodeError β}
    (isHead : Cbor.IsHead major argument head)
    (sized : (major, type) ∈ Cbor.ItemType.sizedTypes)
    (later : RunsOut next (head ++ others)) :
    RunsOut (fun input => expectType field type input >>= fun _ => next input)
      (head ++ others) := by
  intro start missing cut joined
  dsimp only
  by_cases empty : start = []
  · subst empty
    rfl
  · rw [bind_expectType (type_of_start isHead sized joined empty)]
    exact later start missing cut joined

end

/-! ## Single items -/

section

variable {major argument : Nat} {head content bytes : Bytes}

/-- A reading that fails only where the input ends. -/
theorem runsOut_orEnd {read : Bytes → Option (α × Bytes)} {value : α}
    (reads : ReadsAhead read)
    (whole : read bytes = some (value, [])) :
    RunsOut (fun input => orEnd (read input)) bytes := by
  rintro start missing cut rfl
  dsimp only
  rw [reads.eq_none_of_cut whole cut]
  rfl

theorem definite?_runsOut (major_lt : major < 8)
    (isHead : Cbor.IsHead major argument head) :
    RunsOut (fun input => orEnd (Cbor.definite? major input)) head := by
  apply runsOut_orEnd (Cbor.definite?_readsAhead major)
  exact (Cbor.definite?_eq_some_iff major_lt).mpr ⟨head, isHead,
    (List.append_nil head).symm⟩

theorem container?_runsOut (major_lt : major < 8)
    (isHead : Cbor.IsHead major argument head) :
    RunsOut (fun input => orEnd (Cbor.container? major input)) head := by
  apply runsOut_orEnd (Cbor.container?_readsAhead major)
  exact List.append_nil head ▸ isHead.container?_append major_lt []

theorem take?_runsOut (content : Bytes) :
    RunsOut (fun input => orEnd (Cbor.take? content.length input)) content := by
  apply runsOut_orEnd (Cbor.take?_readsAhead content.length)
  exact Cbor.take?_eq_some_iff.mpr ⟨rfl, (List.append_nil content).symm⟩

theorem string?_runsOut (string : Cbor.IsString Cbor.byteStringType content bytes) :
    RunsOut (fun input => orEnd (Cbor.string? Cbor.byteStringType input)) bytes := by
  apply runsOut_orEnd (Cbor.string?_readsAhead Cbor.byteStringType)
  exact (Cbor.string?_eq_some_iff (by decide)).mpr
    ⟨fun text => absurd text (by decide), bytes, string, (List.append_nil bytes).symm⟩

theorem readUnsigned_runsOut (field : Field)
    (isHead : Cbor.IsHead Cbor.unsignedType argument head) :
    RunsOut (readUnsigned field) head := by
  intro start missing cut joined
  cases start with
  | nil => rfl
  | cons first rest =>
      rcases isHead.exists_cons (by decide) with ⟨other, tail, rfl, unsigned, definite⟩
      cases (List.cons.inj joined).1
      have typed : ∃ type, Cbor.ItemType.of? (first :: rest) = some type ∧
          type.isUnsigned = true :=
        Cbor.ItemType.of?_of_unsigned unsigned definite
      rcases typed with ⟨type, found, isUnsigned⟩
      rw [readUnsigned, found]
      change (if type.isUnsigned then _ else _) = _
      rw [if_pos isUnsigned]
      exact definite?_runsOut (by decide) isHead _ missing cut joined

end

/-! ## Parts of the metadata -/

theorem Accepts.reads {read : Bytes → Except DecodeError (α × Bytes)}
    {grammar : α → Bytes → Prop}
    {value : α} {bytes : Bytes} (accepts : Accepts read grammar)
    (holds : grammar value bytes)
    (rest : Bytes) : read (bytes ++ rest) = .ok (value, rest) :=
  (accepts _ _ _).mpr ⟨bytes, holds, rfl⟩

section

variable {bytes : Bytes}

theorem readUnsignedList_runsOut (field : Field) {numbers : List Nat}
    (written : IsNumbers numbers bytes) :
    RunsOut (readUnsignedList field numbers.length) bytes := by
  induction written with
  | nil => exact runsOut_nil _
  | cons head tail induction =>
      have reads := (readUnsigned_accepts field).reads head
      exact RunsOut.bind reads (readUnsigned_runsOut field head) fun _ => induction.last

theorem readArrayHead_runsOut (field : Field) {count : Nat}
    (array : Cbor.IsHead Cbor.arrayType count bytes) :
    RunsOut (readArrayHead field) bytes :=
  (container?_runsOut (by decide) array).last

theorem readIntegrityHash_runsOut {hash : Bytes}
    (string : Cbor.IsString Cbor.byteStringType hash bytes) :
    RunsOut readIntegrityHash bytes := by
  have read := string?_runsOut string
  rcases string with ⟨head, isHead, rfl⟩
  exact RunsOut.afterType isHead (by decide) read.last

theorem readText_runsOut (field : Field) {content : Bytes}
    (string : Cbor.IsString Cbor.textType content bytes) :
    RunsOut (readText field) bytes := by
  rcases string with ⟨head, isHead, rfl⟩
  apply RunsOut.afterType isHead (by decide)
  have reads : ∀ rest, orEnd (Cbor.definite? Cbor.textType (head ++ rest)) =
      .ok (content.length, rest) :=
    fun rest => orEnd_eq_ok_iff.mpr (isHead.definite?_append (by decide) rest)
  exact RunsOut.bind reads (definite?_runsOut (by decide) isHead) fun _ =>
    (take?_runsOut content).last

theorem readCompilerVersion_runsOut {version : Version}
    (map : IsVersionMap version bytes) :
    RunsOut readCompilerVersion bytes := by
  cases map with
  | @mk major minor patch mapBytes key arrayBytes majorBytes minorBytes patchBytes
      map text array majorHead minorHead patchHead =>
      simp only [List.append_assoc]
      apply RunsOut.afterType map (by decide)
      have readsMap : ∀ rest, orEnd (Cbor.container? Cbor.mapType (mapBytes ++ rest)) =
          .ok (some 1, rest) :=
        fun rest => orEnd_eq_ok_iff.mpr (map.container?_append (by decide) rest)
      apply RunsOut.bind readsMap (container?_runsOut (by decide) map)
      intro _
      apply RunsOut.bind
        ((readText_accepts .compilerKey).reads ⟨isValid_compilerKey, text⟩)
        (readText_runsOut _ text)
      intro _
      apply RunsOut.afterType array (by decide)
      apply RunsOut.bind ((readArrayHead_accepts .compilerVersion).reads array)
        (readArrayHead_runsOut _ array)
      intro _
      apply RunsOut.bind ((readUnsigned_accepts .majorVersion).reads majorHead)
        (readUnsigned_runsOut _ majorHead)
      intro _
      apply RunsOut.bind ((readUnsigned_accepts .minorVersion).reads minorHead)
        (readUnsigned_runsOut _ minorHead)
      intro _
      exact (readUnsigned_runsOut .patchVersion patchHead).last

theorem readLayout_runsOut {layout : CodeLayout} (items : IsLayout layout bytes) :
    RunsOut readLayout bytes := by
  cases items with
  | mk runtime array sections immutables =>
      simp only [List.append_assoc]
      apply RunsOut.bind ((readUnsigned_accepts .runtimeCodeLength).reads runtime)
        (readUnsigned_runsOut _ runtime)
      intro _
      apply RunsOut.afterType array (by decide)
      apply RunsOut.bind ((readArrayHead_accepts .dataSectionLengths).reads array)
        (readArrayHead_runsOut _ array)
      intro _
      apply RunsOut.bind
        ((readUnsignedList_accepts .dataSectionLength _).reads ⟨rfl, sections⟩)
        (readUnsignedList_runsOut _ sections)
      intro _
      exact (readUnsigned_runsOut .immutablesLength immutables).last

theorem readOptionalHash_runsOut {count : Nat} {hash : Option Bytes}
    (optional : IsOptionalHash count hash bytes) :
    RunsOut (readOptionalHash count) bytes := by
  cases optional with
  | without => exact runsOut_nil _
  | hashed length string => exact (readIntegrityHash_runsOut string).last

theorem read_runsOut {auxdata : VyperAuxdata} (encoding : IsEncoding auxdata bytes) :
    RunsOut read bytes := by
  have isMap : (Cbor.mapType, Cbor.ItemType.map) ∈ Cbor.ItemType.sizedTypes := by decide
  have isArray :
      (Cbor.arrayType, Cbor.ItemType.array) ∈ Cbor.ItemType.sizedTypes := by decide
  cases encoding.parts with
  | version map =>
      have later := readCompilerVersion_runsOut map
      cases map with
      | mk map text array majorHead minorHead patchHead =>
          simp only [List.append_assoc] at later ⊢
          exact RunsOut.ofType map isMap later.last
  | sized array optional items map =>
      apply RunsOut.ofType array isArray
      apply RunsOut.bind ((readArrayHead_accepts .auxdata).reads array)
        (readArrayHead_runsOut _ array)
      intro _
      apply RunsOut.bind (readOptionalHash_reads optional)
        (readOptionalHash_runsOut optional)
      intro _
      apply RunsOut.bind (readLayout_accepts.reads items) (readLayout_runsOut items)
      intro _
      exact (readCompilerVersion_runsOut map).last

/-- Metadata that is cut anywhere before its end is refused because the input ends. -/
theorem decode_truncated {encoded : Bytes} {auxdata : VyperAuxdata} {size count : Nat}
    (decoded : decode encoded = .ok (auxdata, size)) (short : count < size) :
    decode (encoded.take count) = .error .endOfInput := by
  rcases decode_eq_ok_iff.mp decoded with ⟨fits, encoding⟩
  have missing : (encoded.take size).drop count ≠ [] := by
    apply List.ne_nil_of_length_pos
    rw [List.length_drop, List.length_take_of_le fits]
    omega
  have joined : encoded.take count ++ (encoded.take size).drop count =
      encoded.take size := by
    have start : encoded.take count = (encoded.take size).take count := by
      rw [List.take_take, Nat.min_eq_left (Nat.le_of_lt short)]
    rw [start, List.take_append_drop]
  rw [decode, read_runsOut encoding _ _ missing joined]
  rfl

/-! Metadata with heads that are longer than they need to be, cut in the head of the
name of the compiler. -/

def longHeads : Bytes :=
  [0x98, 4, 0x19, 0, 9, 0x81, 7, 0x18, 0, 0xB8, 1, 0x78, 5, 0x76, 0x79, 0x70, 0x65, 0x72,
    0x83, 0, 4, 0x1A, 0, 0, 0, 1, 0xFF]

theorem decode_longHeads :
    decode longHeads = .ok (⟨none, some ⟨9, [7], 0⟩, .release 0 4 1⟩, 26) := by
  rfl

theorem decode_truncated_longHeads :
    decode longHeads = .ok (⟨none, some ⟨9, [7], 0⟩, .release 0 4 1⟩, 26) ∧ 12 < 26 ∧
      decode (longHeads.take 12) = .error .endOfInput :=
  ⟨decode_longHeads, by decide, decode_truncated decode_longHeads (by decide)⟩

end

end VyperAuxdata

end ContractCode
