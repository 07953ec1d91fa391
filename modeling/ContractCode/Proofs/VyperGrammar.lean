import ContractCode.Auxdata.Vyper
import ContractCode.Proofs.HeadForms
import ContractCode.Proofs.Run

/-! # The grammar of Vyper metadata

Vyper metadata is a map with the compiler version, or an array of four or five items
that ends with that map. Every head may be written in any form that has room for its
argument. The reader accepts exactly these byte strings, takes no byte after them into
account, and no byte string reads in two ways.
-/

namespace ContractCode.VyperAuxdata

/-! ## What is written -/

/-- The bytes are the numbers, one after another. -/
inductive IsNumbers : List Nat → Bytes → Prop
  | nil : IsNumbers [] []
  | cons {number : Nat} {numbers : List Nat} {first others : Bytes}
      (head : Cbor.IsHead Cbor.unsignedType number first)
      (tail : IsNumbers numbers others) :
      IsNumbers (number :: numbers) (first ++ others)

/-- The bytes are the map from the name of the compiler to the parts of its version. -/
inductive IsVersionMap : Version → Bytes → Prop
  | mk {major minor patch : Nat}
      {mapBytes key arrayBytes majorBytes minorBytes patchBytes : Bytes}
      (map : Cbor.IsHead Cbor.mapType 1 mapBytes)
      (compiler : Cbor.IsString Cbor.textType compilerKey key)
      (array : Cbor.IsHead Cbor.arrayType 3 arrayBytes)
      (majorHead : Cbor.IsHead Cbor.unsignedType major majorBytes)
      (minorHead : Cbor.IsHead Cbor.unsignedType minor minorBytes)
      (patchHead : Cbor.IsHead Cbor.unsignedType patch patchBytes) :
      IsVersionMap (.release major minor patch)
        (mapBytes ++ key ++ arrayBytes ++ majorBytes ++ minorBytes ++ patchBytes)

/-- The bytes are the items of the layout, of which the second is a list. -/
inductive IsLayout : CodeLayout → Bytes → Prop
  | mk {layout : CodeLayout}
      {runtimeBytes arrayBytes sectionsBytes immutablesBytes : Bytes}
      (runtime : Cbor.IsHead Cbor.unsignedType layout.runtimeCodeLength runtimeBytes)
      (array : Cbor.IsHead Cbor.arrayType layout.dataSectionLengths.length arrayBytes)
      (sections : IsNumbers layout.dataSectionLengths sectionsBytes)
      (immutables :
        Cbor.IsHead Cbor.unsignedType layout.immutablesLength immutablesBytes) :
      IsLayout layout (runtimeBytes ++ arrayBytes ++ sectionsBytes ++ immutablesBytes)

inductive IsEncoding : VyperAuxdata → Bytes → Prop
  | version {version : Version} {bytes : Bytes} (map : IsVersionMap version bytes) :
      IsEncoding ⟨none, none, version⟩ bytes
  | layout {layout : CodeLayout} {version : Version}
      {arrayBytes layoutBytes versionBytes : Bytes}
      (array : Cbor.IsHead Cbor.arrayType 4 arrayBytes)
      (items : IsLayout layout layoutBytes)
      (map : IsVersionMap version versionBytes) :
      IsEncoding ⟨none, some layout, version⟩ (arrayBytes ++ layoutBytes ++ versionBytes)
  | hashed {hash : Bytes} {layout : CodeLayout} {version : Version}
      {arrayBytes hashBytes layoutBytes versionBytes : Bytes}
      (array : Cbor.IsHead Cbor.arrayType 5 arrayBytes) (length : hash.length = 32)
      (string : Cbor.IsString Cbor.byteStringType hash hashBytes)
      (items : IsLayout layout layoutBytes) (map : IsVersionMap version versionBytes) :
      IsEncoding ⟨some hash, some layout, version⟩
        (arrayBytes ++ hashBytes ++ layoutBytes ++ versionBytes)

/-! ## Checks -/

theorem orEnd_eq_ok_iff {found : Option α} {value : α} :
    orEnd found = .ok value ↔ found = some value := by
  cases found with
  | none => simp [orEnd]
  | some other => simp [orEnd]

theorem definiteLength_eq_ok_iff {field : Field} {found : Option Nat} {length : Nat} :
    definiteLength field found = .ok length ↔ found = some length := by
  cases found with
  | none => simp [definiteLength]
  | some other => simp [definiteLength]

theorem expectLength_eq_ok_iff {field : Field} {expected found : Nat} :
    expectLength field expected found = .ok () ↔ found = expected := by
  rw [expectLength]
  split <;> simp_all

theorem expectCompilerKey_eq_ok_iff {key : Bytes} :
    expectCompilerKey key = .ok () ↔ key = compilerKey := by
  rw [expectCompilerKey]
  split <;> simp_all

theorem expectType_eq_ok_iff {field : Field} {expected : Cbor.ItemType} {input : Bytes} :
    expectType field expected input = .ok () ↔
      Cbor.ItemType.of? input = some expected := by
  rw [expectType]
  apply Run.bind_eq_ok_iff.trans
  constructor
  · rintro ⟨found, type, checked⟩
    rw [orEnd_eq_ok_iff] at type
    split at checked
    · rename_i same
      rw [type, same]
    · cases checked
  · intro type
    exact ⟨expected, orEnd_eq_ok_iff.mpr type, if_pos rfl⟩

/-! ## Reading

A reader accepts a grammar if it reads what the grammar has at the start of the input,
and nothing else, and leaves the rest. -/

def Accepts (read : Bytes → Except DecodeError (α × Bytes))
    (grammar : α → Bytes → Prop) : Prop :=
  ∀ input value rest, read input = .ok (value, rest) ↔
    ∃ bytes, grammar value bytes ∧ input = bytes ++ rest

section

variable {α β : Type} {read : Bytes → Except DecodeError (α × Bytes)}
  {grammar : α → Bytes → Prop}
  {input rest : Bytes}

/-- The first step of a longer reading. -/
theorem Accepts.first {next : α × Bytes → Except DecodeError β} {result : β}
    (accepts : Accepts read grammar) (found : read input >>= next = .ok result) :
    ∃ value bytes rest, grammar value bytes ∧ input = bytes ++ rest ∧
      next (value, rest) = .ok result := by
  rcases Run.bind_eq_ok_iff.mp found with ⟨⟨value, rest⟩, first, later⟩
  rcases (accepts _ _ _).mp first with ⟨bytes, holds, rfl⟩
  exact ⟨value, bytes, rest, holds, rfl, later⟩

theorem Accepts.bind {value : α} {bytes : Bytes} (accepts : Accepts read grammar)
    (holds : grammar value bytes) (next : α × Bytes → Except DecodeError β) :
    read (bytes ++ rest) >>= next = next (value, rest) := by
  rw [(accepts (bytes ++ rest) value rest).mpr ⟨bytes, holds, rfl⟩]
  rfl

/-- A type that is looked at before a longer reading. -/
theorem bind_expectType {field : Field} {expected : Cbor.ItemType}
    (type : Cbor.ItemType.of? input = some expected)
    (next : Unit → Except DecodeError β) :
    expectType field expected input >>= next = next () := by
  rw [expectType_eq_ok_iff.mpr type]
  rfl

end

theorem readUnsigned_accepts (field : Field) :
    Accepts (readUnsigned field) (Cbor.IsHead Cbor.unsignedType) := by
  intro input value rest
  rw [readUnsigned]
  constructor
  · intro found
    rcases Run.bind_eq_ok_iff.mp found with ⟨type, _, read⟩
    split at read
    · exact (Cbor.definite?_eq_some_iff (by decide)).mp (orEnd_eq_ok_iff.mp read)
    · cases read
  · rintro ⟨head, isHead, rfl⟩
    rcases isHead.unsignedType with ⟨type, found, unsigned⟩
    apply Run.bind_eq_ok_iff.mpr ⟨type, orEnd_eq_ok_iff.mpr found, ?_⟩
    rw [if_pos unsigned]
    exact orEnd_eq_ok_iff.mpr (isHead.definite?_append (by decide) rest)

theorem readUnsignedList_accepts (field : Field) (count : Nat) :
    Accepts (readUnsignedList field count)
      fun numbers bytes => numbers.length = count ∧ IsNumbers numbers bytes := by
  induction count with
  | zero =>
      intro input value rest
      constructor
      · intro found
        cases found
        exact ⟨[], ⟨rfl, .nil⟩, rfl⟩
      · rintro ⟨_, ⟨empty, numbers⟩, rfl⟩
        cases numbers with
        | nil => rfl
        | cons head tail => cases empty
  | succ count induction =>
      intro input value rest
      rw [readUnsignedList]
      constructor
      · intro found
        rcases (readUnsigned_accepts field).first found with
          ⟨number, first, _, head, rfl, later⟩
        rcases induction.first later with ⟨numbers, others, _, ⟨length, tail⟩, rfl, last⟩
        cases last
        exact ⟨first ++ others, ⟨congrArg Nat.succ length, .cons head tail⟩,
          (List.append_assoc _ _ _).symm⟩
      · rintro ⟨_, ⟨length, numbers⟩, rfl⟩
        cases numbers with
        | nil => cases length
        | cons head tail =>
            rw [List.append_assoc, (readUnsigned_accepts field).bind head]
            dsimp only
            rw [induction.bind ⟨Nat.succ.inj length, tail⟩]
            rfl

theorem readArrayHead_accepts (field : Field) :
    Accepts (readArrayHead field) (Cbor.IsHead Cbor.arrayType) := by
  intro input value rest
  rw [← Cbor.definite?_eq_some_iff (by decide), ← Cbor.container?_eq_some_some_iff]
  constructor
  · intro found
    rcases Run.bind_eq_ok_iff.mp found with ⟨⟨count, left⟩, head, later⟩
    rcases Run.bind_eq_ok_iff.mp later with ⟨length, definite, last⟩
    cases last
    rw [orEnd_eq_ok_iff] at head
    rw [definiteLength_eq_ok_iff] at definite
    rw [head, definite]
  · intro head
    rw [readArrayHead, head]
    rfl

theorem readIntegrityHash_accepts :
    Accepts readIntegrityHash
      fun hash bytes =>
        hash.length = 32 ∧ Cbor.IsString Cbor.byteStringType hash bytes := by
  intro input hash rest
  rw [readIntegrityHash]
  constructor
  · intro found
    rcases Run.bind_eq_ok_iff.mp found with ⟨_, _, afterType⟩
    rcases Run.bind_eq_ok_iff.mp afterType with ⟨⟨content, left⟩, string, afterString⟩
    rcases Run.bind_eq_ok_iff.mp afterString with ⟨_, length, last⟩
    cases last
    rcases (Cbor.string?_eq_some_iff (by decide)).mp (orEnd_eq_ok_iff.mp string)
      with ⟨_, bytes, isString, rfl⟩
    exact ⟨bytes, ⟨expectLength_eq_ok_iff.mp length, isString⟩, rfl⟩
  · rintro ⟨bytes, ⟨length, isString⟩, rfl⟩
    have string : Cbor.string? Cbor.byteStringType (bytes ++ rest) = some (hash, rest) :=
      (Cbor.string?_eq_some_iff (by decide)).mpr
        ⟨fun text => absurd text (by decide), bytes, isString, rfl⟩
    rw [bind_expectType (isString.sizedType (by decide)), string]
    apply Run.bind_eq_ok_iff.mpr ⟨(hash, rest), rfl, ?_⟩
    exact Run.bind_eq_ok_iff.mpr ⟨(), expectLength_eq_ok_iff.mpr length, rfl⟩

theorem readText_accepts (field : Field) :
    Accepts (readText field)
      fun content bytes => Utf8.isValid content = true ∧
        Cbor.IsString Cbor.textType content bytes := by
  intro input content rest
  rw [readText]
  constructor
  · intro found
    rcases Run.bind_eq_ok_iff.mp found with ⟨_, _, afterType⟩
    rcases Run.bind_eq_ok_iff.mp afterType with ⟨⟨length, left⟩, headed, afterHead⟩
    rcases Run.bind_eq_ok_iff.mp afterHead with ⟨⟨text, last⟩, body, checked⟩
    rw [orEnd_eq_ok_iff] at headed body
    rcases (Cbor.definite?_eq_some_iff (by decide)).mp headed with ⟨head, isHead, rfl⟩
    rcases Cbor.take?_eq_some_iff.mp body with ⟨rfl, rfl⟩
    dsimp only at checked
    split at checked
    · rename_i valid
      cases checked
      exact ⟨_, ⟨valid, head, isHead, rfl⟩, (List.append_assoc _ _ _).symm⟩
    · cases checked
  · rintro ⟨bytes, ⟨valid, isString⟩, rfl⟩
    rw [bind_expectType (isString.sizedType (by decide))]
    rcases isString with ⟨head, isHead, rfl⟩
    rw [List.append_assoc, isHead.definite?_append (by decide)]
    apply Run.bind_eq_ok_iff.mpr
      ⟨_, orEnd_eq_ok_iff.mpr (Cbor.take?_append content rest), ?_⟩
    exact if_pos valid

theorem isValid_compilerKey : Utf8.isValid compilerKey = true := by decide +kernel

theorem readCompilerVersion_accepts : Accepts readCompilerVersion IsVersionMap := by
  intro input version rest
  rw [readCompilerVersion]
  constructor
  · intro found
    rcases Run.bind_eq_ok_iff.mp found with ⟨_, _, afterType⟩
    rcases Run.bind_eq_ok_iff.mp afterType with ⟨⟨count, entries⟩, head, afterHead⟩
    rcases Run.bind_eq_ok_iff.mp afterHead with ⟨length, definite, afterLength⟩
    rcases Run.bind_eq_ok_iff.mp afterLength with ⟨_, one, afterMap⟩
    rw [orEnd_eq_ok_iff] at head
    rw [definiteLength_eq_ok_iff] at definite
    rw [expectLength_eq_ok_iff] at one
    subst definite one
    rcases (Cbor.definite?_eq_some_iff (by decide)).mp
      (Cbor.container?_eq_some_some_iff.mp head)
      with ⟨mapBytes, map, rfl⟩
    rcases (readText_accepts _).first afterMap with
      ⟨key, keyBytes, _, ⟨_, text⟩, rfl, afterText⟩
    rcases Run.bind_eq_ok_iff.mp afterText with ⟨_, named, afterKey⟩
    rcases Run.bind_eq_ok_iff.mp afterKey with ⟨_, _, afterArrayType⟩
    rcases (readArrayHead_accepts _).first afterArrayType
      with ⟨components, arrayBytes, _, array, rfl, afterArray⟩
    rcases Run.bind_eq_ok_iff.mp afterArray with ⟨_, three, parts⟩
    rcases (readUnsigned_accepts _).first parts with
      ⟨major, majorBytes, _, majorHead, rfl, afterMajor⟩
    rcases (readUnsigned_accepts _).first afterMajor
      with ⟨minor, minorBytes, _, minorHead, rfl, afterMinor⟩
    rcases (readUnsigned_accepts _).first afterMinor with
      ⟨patch, patchBytes, _, patchHead, rfl, last⟩
    rw [expectCompilerKey_eq_ok_iff] at named
    rw [expectLength_eq_ok_iff] at three
    subst named three
    cases last
    exact ⟨_, .mk map text array majorHead minorHead patchHead,
      by simp only [List.append_assoc]⟩
  · rintro ⟨_, ⟨map, text, array, majorHead, minorHead, patchHead⟩, rfl⟩
    simp only [List.append_assoc]
    rw [bind_expectType (map.sizedType (by decide)), map.container?_append (by decide)]
    apply Run.bind_eq_ok_iff.mpr ⟨(some 1, _), rfl, ?_⟩
    apply Run.bind_eq_ok_iff.mpr ⟨1, rfl, ?_⟩
    apply Run.bind_eq_ok_iff.mpr ⟨(), expectLength_eq_ok_iff.mpr rfl, ?_⟩
    rw [(readText_accepts _).bind ⟨isValid_compilerKey, text⟩]
    apply Run.bind_eq_ok_iff.mpr ⟨(), expectCompilerKey_eq_ok_iff.mpr rfl, ?_⟩
    rw [bind_expectType (array.sizedType (by decide)),
      (readArrayHead_accepts _).bind array]
    apply Run.bind_eq_ok_iff.mpr ⟨(), expectLength_eq_ok_iff.mpr rfl, ?_⟩
    rw [(readUnsigned_accepts _).bind majorHead]
    dsimp only
    rw [(readUnsigned_accepts _).bind minorHead]
    dsimp only
    rw [(readUnsigned_accepts _).bind patchHead]
    rfl

theorem readLayout_accepts : Accepts readLayout IsLayout := by
  intro input layout rest
  rw [readLayout]
  constructor
  · intro found
    rcases (readUnsigned_accepts _).first found
      with ⟨runtimeCodeLength, runtimeBytes, _, runtime, rfl, afterRuntime⟩
    rcases Run.bind_eq_ok_iff.mp afterRuntime with ⟨_, _, afterType⟩
    rcases (readArrayHead_accepts _).first afterType
      with ⟨count, arrayBytes, _, array, rfl, afterArray⟩
    rcases (readUnsignedList_accepts _ _).first afterArray
      with ⟨numbers, sectionsBytes, _, ⟨length, sections⟩, rfl, afterSections⟩
    rcases (readUnsigned_accepts _).first afterSections
      with ⟨immutablesLength, immutablesBytes, _, immutables, rfl, last⟩
    cases last
    subst length
    exact ⟨_, .mk runtime array sections immutables, by simp only [List.append_assoc]⟩
  · rintro ⟨_, ⟨runtime, array, sections, immutables⟩, rfl⟩
    simp only [List.append_assoc]
    rw [(readUnsigned_accepts _).bind runtime]
    dsimp only
    rw [bind_expectType (array.sizedType (by decide)),
      (readArrayHead_accepts _).bind array]
    dsimp only
    rw [(readUnsignedList_accepts _ _).bind ⟨rfl, sections⟩]
    dsimp only
    rw [(readUnsigned_accepts _).bind immutables]
    rfl

theorem readSized_accepts :
    Accepts readSized fun auxdata bytes =>
      IsEncoding auxdata bytes ∧ auxdata.layout ≠ none := by
  intro input auxdata rest
  rw [readSized]
  constructor
  · intro found
    rcases (readArrayHead_accepts _).first found with
      ⟨count, arrayBytes, _, array, rfl, afterArray⟩
    rcases Run.bind_eq_ok_iff.mp afterArray with ⟨⟨hash, left⟩, optional, afterHash⟩
    rcases readLayout_accepts.first afterHash with
      ⟨layout, layoutBytes, _, items, same, afterLayout⟩
    rcases readCompilerVersion_accepts.first afterLayout
      with ⟨version, versionBytes, _, map, rfl, last⟩
    cases last
    subst same
    rw [readOptionalHash] at optional
    split at optional
    · rename_i four
      cases optional
      subst four
      exact ⟨_, ⟨.layout array items map, nofun⟩, by simp only [List.append_assoc]⟩
    · split at optional
      · rename_i five
        rcases readIntegrityHash_accepts.first optional
          with ⟨bytes, hashBytes, _, ⟨length, string⟩, rfl, hashed⟩
        cases hashed
        subst five
        exact ⟨_, ⟨.hashed array length string items map, nofun⟩,
          by simp only [List.append_assoc]⟩
      · cases optional
  · rintro ⟨_, ⟨encoding, sized⟩, rfl⟩
    cases encoding with
    | version map => exact absurd rfl sized
    | layout array items map =>
        simp only [List.append_assoc]
        rw [(readArrayHead_accepts _).bind array]
        apply Run.bind_eq_ok_iff.mpr ⟨(none, _), rfl, ?_⟩
        rw [readLayout_accepts.bind items]
        dsimp only
        rw [readCompilerVersion_accepts.bind map]
        rfl
    | hashed array length string items map =>
        simp only [List.append_assoc]
        rw [(readArrayHead_accepts _).bind array]
        apply Run.bind_eq_ok_iff.mpr
          ⟨(some _, _), readIntegrityHash_accepts.bind ⟨length, string⟩ _, ?_⟩
        rw [readLayout_accepts.bind items]
        dsimp only
        rw [readCompilerVersion_accepts.bind map]
        rfl

theorem IsVersionMap.type {version : Version} {bytes : Bytes}
    (map : IsVersionMap version bytes)
    (rest : Bytes) : Cbor.ItemType.of? (bytes ++ rest) = some .map := by
  cases map with
  | mk map compiler array majorHead minorHead patchHead =>
      simp only [List.append_assoc]
      exact map.sizedType (by decide)

theorem IsEncoding.type_of_layout {auxdata : VyperAuxdata} {bytes : Bytes}
    (encoding : IsEncoding auxdata bytes) (sized : auxdata.layout ≠ none) (rest : Bytes) :
    Cbor.ItemType.of? (bytes ++ rest) = some .array := by
  cases encoding with
  | version map => exact absurd rfl sized
  | layout array items map | hashed array length string items map =>
      simp only [List.append_assoc]
      exact array.sizedType (by decide)

theorem read_accepts : Accepts read IsEncoding := by
  intro input auxdata rest
  rw [read]
  constructor
  · intro found
    rcases Run.bind_eq_ok_iff.mp found with ⟨type, _, reading⟩
    split at reading
    · rcases readCompilerVersion_accepts.first reading with
        ⟨version, bytes, _, map, rfl, last⟩
      cases last
      exact ⟨bytes, .version map, rfl⟩
    · rcases (readSized_accepts _ _ _).mp reading with ⟨bytes, ⟨encoding, _⟩, rfl⟩
      exact ⟨bytes, encoding, rfl⟩
    · cases reading
  · rintro ⟨bytes, encoding, rfl⟩
    by_cases sized : auxdata.layout = none
    · cases encoding with
      | version map =>
          rw [map.type]
          apply Run.bind_eq_ok_iff.mpr ⟨Cbor.ItemType.map, rfl, ?_⟩
          exact readCompilerVersion_accepts.bind map _
      | layout array items map | hashed array length string items map => cases sized
    · rw [encoding.type_of_layout sized]
      apply Run.bind_eq_ok_iff.mpr ⟨Cbor.ItemType.array, rfl, ?_⟩
      exact (readSized_accepts _ _ _).mpr ⟨bytes, ⟨encoding, sized⟩, rfl⟩

theorem decode_eq_ok_iff {encoded : Bytes} {auxdata : VyperAuxdata} {size : Nat} :
    decode encoded = .ok (auxdata, size) ↔
      size ≤ encoded.length ∧ IsEncoding auxdata (encoded.take size) := by
  rw [decode]
  constructor
  · intro decoded
    rcases read_accepts.first decoded with ⟨found, bytes, rest, encoding, rfl, last⟩
    cases last
    simp only [List.length_append, Nat.add_sub_cancel, List.take_left]
    exact ⟨Nat.le_add_right _ _, encoding⟩
  · rintro ⟨fits, encoding⟩
    have reading : read encoded = .ok (auxdata, encoded.drop size) :=
      (read_accepts _ _ _).mpr ⟨_, encoding, (List.take_append_drop size encoded).symm⟩
    apply Run.bind_eq_ok_iff.mpr ⟨_, reading, ?_⟩
    dsimp only
    rw [List.length_drop, Nat.sub_sub_self fits]
    rfl

/-- Metadata is decoded exactly where it is written, whatever follows it, and is written
in one way at most at the start of any bytes. -/
theorem decode_iff_isEncoding (encoded : Bytes) :
    (∀ auxdata size, decode encoded = .ok (auxdata, size) ↔
      size ≤ encoded.length ∧ IsEncoding auxdata (encoded.take size)) ∧
    (∀ auxdata size trailing, decode encoded = .ok (auxdata, size) →
      decode (encoded.take size ++ trailing) = .ok (auxdata, size)) ∧
    (∀ first second firstSize secondSize, firstSize ≤ encoded.length →
      IsEncoding first (encoded.take firstSize) → secondSize ≤ encoded.length →
      IsEncoding second (encoded.take secondSize) → first = second ∧
      firstSize = secondSize) := by
  refine ⟨fun _ _ => decode_eq_ok_iff, ?_, ?_⟩
  · intro auxdata size trailing decoded
    rcases decode_eq_ok_iff.mp decoded with ⟨fits, encoding⟩
    have length : (encoded.take size).length = size := List.length_take_of_le fits
    apply decode_eq_ok_iff.mpr
    rw [List.length_append, length, List.take_left' length]
    exact ⟨Nat.le_add_right _ _, encoding⟩
  · intro first second firstSize secondSize firstFits isFirst secondFits isSecond
    have decodedFirst := decode_eq_ok_iff.mpr ⟨firstFits, isFirst⟩
    have decodedSecond := decode_eq_ok_iff.mpr ⟨secondFits, isSecond⟩
    cases decodedFirst.symm.trans decodedSecond
    exact ⟨rfl, rfl⟩

/-- Heads that are longer than they need to be are read like any others. -/
example :
    decode [0x98, 4, 0x19, 0, 9, 0x81, 7, 0x18, 0, 0xB8, 1, 0x78, 5, 0x76, 0x79,
        0x70, 0x65, 0x72, 0x83, 0, 4, 0x1A, 0, 0, 0, 1, 0xFF] =
      .ok (⟨none, some ⟨9, [7], 0⟩, .release 0 4 1⟩, 26) := by
  rfl

end ContractCode.VyperAuxdata
