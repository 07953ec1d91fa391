import ContractCode.Proofs.TruncatedMetadata

/-! # Containers of indefinite length

Vyper metadata consists of arrays and maps that tell their length. A head that leaves
the length open is of another type, and the type is looked at before the head is read.
So an open container is refused for its type, wherever it is, and there is no input that
is refused for an indefinite length.
-/

namespace ContractCode

namespace Cbor

theorem ItemType.of?_ne_of_indefinite {head : UInt8} {rest : Bytes} {type : ItemType}
    (sized : (majorOf head, type) ∈ sizedTypes)
    (indefinite : infoOf head = indefiniteInfo) :
    ItemType.of? (head :: rest) ≠ some type := by
  simp only [sizedTypes, List.mem_cons, Prod.mk.injEq, List.not_mem_nil,
    or_false] at sized
  rcases sized with ⟨major, rfl⟩ | ⟨major, rfl⟩ | ⟨major, rfl⟩ | ⟨major, rfl⟩ <;>
    simp [ItemType.of?, ItemType.ofSized, major, indefinite, indefiniteInfo, mapType,
      arrayType, textType, byteStringType, unsignedType, negativeType]

/-- A container has a length if its type tells so. -/
theorem container?_ne_none_of_type {major : Nat} {type : ItemType} {input rest : Bytes}
    {length : Option Nat}
    (typed : ItemType.of? input = some type) (sized : (major, type) ∈ ItemType.sizedTypes)
    (found : container? major input = some (length, rest)) : length ≠ none := by
  rintro rfl
  have major_lt := ItemType.major_lt_of_mem_sizedTypes sized
  rcases (container?_eq_some_none_iff major_lt).mp found with rfl
  rw [← majorOf_openHead major_lt] at sized
  exact ItemType.of?_ne_of_indefinite sized (infoOf_openHead major_lt) typed

end Cbor

namespace VyperAuxdata

/-! ## What is never refused -/

/-- The result is no refusal of an indefinite length. -/
def IsDefinite (result : Except DecodeError β) : Prop :=
  ∀ field, result ≠ .error (.indefiniteLength field)

section

variable {input rest : Bytes} {field : Field}

theorem IsDefinite.bind {first : Except DecodeError α} {next : α → Except DecodeError β}
    (isDefinite : IsDefinite first)
    (later : ∀ value, first = .ok value → IsDefinite (next value)) :
    IsDefinite (first >>= next) :=
  fun field =>
    Run.bind_ne_error (isDefinite field) fun value found => later value found field

theorem isDefinite_ok (value : β) : IsDefinite (.ok value) := by
  intro field same
  cases same

theorem isDefinite_error {failure : DecodeError}
    (other : ∀ field, failure ≠ .indefiniteLength field) :
    IsDefinite (.error failure : Except DecodeError β) :=
  fun field same => other field (Except.error.inj same)

theorem isDefinite_orEnd (found : Option β) : IsDefinite (orEnd found) := by
  cases found with
  | none => exact isDefinite_error (by simp)
  | some value => exact isDefinite_ok value

theorem isDefinite_expectType (field : Field) (type : Cbor.ItemType) (input : Bytes) :
    IsDefinite (expectType field type input) := by
  apply (isDefinite_orEnd _).bind
  intro found _
  split
  · exact isDefinite_ok ()
  · exact isDefinite_error (by simp)

theorem isDefinite_expectLength (field : Field) (expected found : Nat) :
    IsDefinite (expectLength field expected found) := by
  rw [expectLength]
  split
  · exact isDefinite_ok ()
  · exact isDefinite_error (by simp)

theorem isDefinite_expectCompilerKey (key : Bytes) :
    IsDefinite (expectCompilerKey key) := by
  rw [expectCompilerKey]
  split
  · exact isDefinite_ok ()
  · exact isDefinite_error (by simp)

theorem isDefinite_readUnsigned (field : Field) (input : Bytes) :
    IsDefinite (readUnsigned field input) := by
  apply (isDefinite_orEnd _).bind
  intro found _
  split
  · exact isDefinite_orEnd _
  · exact isDefinite_error (by simp)

theorem isDefinite_readUnsignedList (field : Field) (count : Nat) (input : Bytes) :
    IsDefinite (readUnsignedList field count input) := by
  induction count generalizing input with
  | zero => exact isDefinite_ok _
  | succ count induction =>
      apply (isDefinite_readUnsigned field input).bind
      intro first _
      apply (induction first.2).bind
      intro others _
      exact isDefinite_ok _

/-- The length that a head tells, after the type of the item has been looked at. -/
theorem isDefinite_definiteLength {major : Nat} {type : Cbor.ItemType}
    {length : Option Nat}
    (field : Field) (typed : Cbor.ItemType.of? input = some type)
    (sized : (major, type) ∈ Cbor.ItemType.sizedTypes)
    (found : orEnd (Cbor.container? major input) = .ok (length, rest)) :
    IsDefinite (definiteLength field length) := by
  have isSome := Cbor.container?_ne_none_of_type typed sized (orEnd_eq_ok_iff.mp found)
  cases length with
  | none => exact absurd rfl isSome
  | some length => exact isDefinite_ok length

theorem isDefinite_readArrayHead (field : Field)
    (typed : Cbor.ItemType.of? input = some .array) :
    IsDefinite (readArrayHead field input) := by
  apply (isDefinite_orEnd _).bind
  intro head found
  apply (isDefinite_definiteLength field typed (by decide) found).bind
  intro length _
  exact isDefinite_ok _

theorem isDefinite_readIntegrityHash (input : Bytes) :
    IsDefinite (readIntegrityHash input) := by
  apply (isDefinite_expectType _ _ _).bind
  intro _ _
  apply (isDefinite_orEnd _).bind
  intro string _
  apply (isDefinite_expectLength _ _ _).bind
  intro _ _
  exact isDefinite_ok _

theorem isDefinite_readText (field : Field) (input : Bytes) :
    IsDefinite (readText field input) := by
  apply (isDefinite_expectType _ _ _).bind
  intro _ _
  apply (isDefinite_orEnd _).bind
  intro head _
  apply (isDefinite_orEnd _).bind
  intro content _
  dsimp only
  split
  · exact isDefinite_ok _
  · exact isDefinite_error (by simp)

theorem isDefinite_readCompilerVersion (input : Bytes) :
    IsDefinite (readCompilerVersion input) := by
  apply (isDefinite_expectType _ _ _).bind
  intro _ isMap
  apply (isDefinite_orEnd _).bind
  intro head found
  apply (isDefinite_definiteLength _ (expectType_eq_ok_iff.mp isMap)
    (by decide) found).bind
  intro entries _
  apply (isDefinite_expectLength _ _ _).bind
  intro _ _
  apply (isDefinite_readText _ _).bind
  intro key _
  apply (isDefinite_expectCompilerKey _).bind
  intro _ _
  apply (isDefinite_expectType _ _ _).bind
  intro _ isArray
  apply (isDefinite_readArrayHead _ (expectType_eq_ok_iff.mp isArray)).bind
  intro components _
  apply (isDefinite_expectLength _ _ _).bind
  intro _ _
  apply (isDefinite_readUnsigned _ _).bind
  intro major _
  apply (isDefinite_readUnsigned _ _).bind
  intro minor _
  apply (isDefinite_readUnsigned _ _).bind
  intro patch _
  exact isDefinite_ok _

theorem isDefinite_readOptionalHash (length : Nat) (input : Bytes) :
    IsDefinite (readOptionalHash length input) := by
  rw [readOptionalHash]
  split
  · exact isDefinite_ok _
  · split
    · apply (isDefinite_readIntegrityHash input).bind
      intro hash _
      exact isDefinite_ok _
    · exact isDefinite_error (by simp)

theorem isDefinite_readLayout (input : Bytes) : IsDefinite (readLayout input) := by
  apply (isDefinite_readUnsigned _ _).bind
  intro runtimeCodeLength _
  apply (isDefinite_expectType _ _ _).bind
  intro _ isArray
  apply (isDefinite_readArrayHead _ (expectType_eq_ok_iff.mp isArray)).bind
  intro sections _
  apply (isDefinite_readUnsignedList _ _ _).bind
  intro dataSectionLengths _
  apply (isDefinite_readUnsigned _ _).bind
  intro immutablesLength _
  exact isDefinite_ok _

theorem isDefinite_readSized (typed : Cbor.ItemType.of? input = some .array) :
    IsDefinite (readSized input) := by
  apply (isDefinite_readArrayHead _ typed).bind
  intro length _
  apply (isDefinite_readOptionalHash _ _).bind
  intro hash _
  apply (isDefinite_readLayout _).bind
  intro layout _
  apply (isDefinite_readCompilerVersion _).bind
  intro version _
  exact isDefinite_ok _

theorem isDefinite_decode (encoded : Bytes) : IsDefinite (decode encoded) := by
  have reads : IsDefinite (read encoded) := by
    apply (isDefinite_orEnd _).bind
    intro type typed
    split
    · apply (isDefinite_readCompilerVersion _).bind
      intro version _
      exact isDefinite_ok _
    · exact isDefinite_readSized (orEnd_eq_ok_iff.mp typed)
    · exact isDefinite_error (by simp)
  apply reads.bind
  intro auxdata _
  exact isDefinite_ok _

end

/-! ## The containers of metadata -/

inductive Container where
  /-- The array of the layout, which holds the map with the version. -/
  | items
  | sections
  | compiler
  | components
deriving Repr, DecidableEq

namespace Container

def field : Container → Field
  | .items => .auxdata
  | .sections => .dataSectionLengths
  | .compiler => .compiler
  | .components => .compilerVersion

def major : Container → Nat
  | .compiler => Cbor.mapType
  | _ => Cbor.arrayType

def openType : Container → Cbor.ItemType
  | .compiler => .indefiniteMap
  | _ => .indefiniteArray

/-- The bytes are what metadata has before the head of the container. -/
inductive Follows : Container → Bytes → Prop
  | items : Follows .items []
  | sections {count runtimeCodeLength : Nat} {hash : Option Bytes}
      {arrayBytes hashBytes runtimeBytes : Bytes}
      (array : Cbor.IsHead Cbor.arrayType count arrayBytes)
      (optional : IsOptionalHash count hash hashBytes)
      (runtime : Cbor.IsHead Cbor.unsignedType runtimeCodeLength runtimeBytes) :
      Follows .sections (arrayBytes ++ (hashBytes ++ runtimeBytes))
  | compilerAlone : Follows .compiler []
  | compiler {count : Nat} {hash : Option Bytes} {layout : CodeLayout}
      {arrayBytes hashBytes layoutBytes : Bytes}
      (array : Cbor.IsHead Cbor.arrayType count arrayBytes)
      (optional : IsOptionalHash count hash hashBytes)
      (items : IsLayout layout layoutBytes) :
      Follows .compiler (arrayBytes ++ (hashBytes ++ layoutBytes))
  | components {before mapBytes keyBytes : Bytes} (compiler : Follows .compiler before)
      (map : Cbor.IsHead Cbor.mapType 1 mapBytes)
      (key : Cbor.IsString Cbor.textType compilerKey keyBytes) :
      Follows .components (before ++ (mapBytes ++ keyBytes))

/-- The head of the container in the encoding, with what is before and after it. -/
structure IsAt (container : Container) (encoded before head after : Bytes) : Prop where
  follows : container.Follows before
  isHead : ∃ count, Cbor.IsHead container.major count head
  joined : encoded = before ++ (head ++ after)

/-- The field that an item is refused for; what the metadata starts with is refused for
the whole. -/
def refusedField (container : Container) (before : Bytes) : Field :=
  if before = [] then .auxdata else container.field

end Container

/-- The containers of such metadata. -/
def containers (auxdata : VyperAuxdata) : List Container :=
  if auxdata.layout.isSome then [.items, .sections, .compiler, .components]
  else [.compiler, .components]

open Container

/-- The map with the version holds the array of its components. -/
theorem exists_components {version : Version} {before versionBytes : Bytes}
    (compiler : Follows .compiler before) (map : IsVersionMap version versionBytes) :
    (∃ head after, Container.compiler.IsAt (before ++ versionBytes) before head after) ∧
      ∃ earlier head after,
        components.IsAt (before ++ versionBytes) earlier head after := by
  cases map with
  | @mk _ _ _ _ _ _ majorBytes minorBytes patchBytes map key array majorHead minorHead
      patchHead =>
      simp only [List.append_assoc]
      have follows := Follows.components compiler map key
      refine ⟨⟨_, _, compiler, ⟨1, map⟩, rfl⟩,
        _, _, majorBytes ++ (minorBytes ++ patchBytes), follows, ⟨3, array⟩, ?_⟩
      simp only [List.append_assoc]

/-- The places of the containers are those that the metadata has. -/
theorem exists_isAt {auxdata : VyperAuxdata} {encoded : Bytes}
    (encoding : IsEncoding auxdata encoded) :
    ∀ container ∈ auxdata.containers, ∃ before head after,
      container.IsAt encoded before head after := by
  cases encoding.parts with
  | version map =>
      rcases exists_components .compilerAlone map with
        ⟨⟨head, after, compiler⟩, components⟩
      simp only [containers, Option.isSome_none, Bool.false_eq_true, if_false,
        List.forall_mem_cons]
      exact ⟨⟨_, _, _, compiler⟩, components, nofun⟩
  | @sized _ _ _ _ arrayBytes hashBytes layoutBytes versionBytes array optional
      items map =>
      have parts := exists_components (.compiler array optional items) map
      simp only [List.append_assoc] at parts
      rcases parts with ⟨⟨head, after, compiler⟩, components⟩
      simp only [containers, Option.isSome_some, if_true, List.forall_mem_cons]
      refine ⟨⟨[], _, _, .items, ⟨_, array⟩, rfl⟩, ?_, ⟨_, _, _, compiler⟩,
        components, nofun⟩
      cases items with
      | @mk _ _ sectionsBytes immutablesBytes runtime list sections immutables =>
          refine ⟨_, _, sectionsBytes ++ (immutablesBytes ++ versionBytes),
            .sections array optional runtime, ⟨_, list⟩, ?_⟩
          simp only [List.append_assoc]

/-! ## Open containers -/

section

variable {field : Field} {after rest : Bytes}

/-- A check of a type that refuses the item ends the reading. -/
theorem bind_expectType_of_ne {found expected : Cbor.ItemType} {input : Bytes}
    (typed : Cbor.ItemType.of? input = some found) (other : found ≠ expected)
    (next : Unit → Except DecodeError β) :
    expectType field expected input >>= next = .error (.unexpectedType field found) := by
  apply Run.bind_of_error
  rw [expectType, typed]
  exact if_neg other

theorem of?_openHead_array :
    Cbor.ItemType.of? (Cbor.openHead Cbor.arrayType :: after) =
      some .indefiniteArray := by
  rfl

theorem of?_openHead_map :
    Cbor.ItemType.of? (Cbor.openHead Cbor.mapType :: after) = some .indefiniteMap := by
  rfl

theorem readCompilerVersion_openCompiler :
    readCompilerVersion (Cbor.openHead Cbor.mapType :: after) =
      .error (.unexpectedType .compiler .indefiniteMap) :=
  bind_expectType_of_ne of?_openHead_map (by decide) _

theorem readCompilerVersion_openComponents {mapBytes keyBytes : Bytes}
    (map : Cbor.IsHead Cbor.mapType 1 mapBytes)
    (key : Cbor.IsString Cbor.textType compilerKey keyBytes) :
    readCompilerVersion
      (mapBytes ++ (keyBytes ++ Cbor.openHead Cbor.arrayType :: after)) =
      .error (.unexpectedType .compilerVersion .indefiniteArray) := by
  rw [readCompilerVersion, bind_expectType (map.sizedType (by decide)),
    map.container?_append (by decide)]
  change readText .compilerKey _ >>= _ = _
  rw [(readText_accepts _).bind ⟨isValid_compilerKey, key⟩]
  apply (Run.bind_of_ok (expectCompilerKey_eq_ok_iff.mpr rfl) _).trans
  exact bind_expectType_of_ne of?_openHead_array (by decide) _

theorem readLayout_openSections {runtimeCodeLength : Nat} {runtimeBytes : Bytes}
    (runtime : Cbor.IsHead Cbor.unsignedType runtimeCodeLength runtimeBytes) :
    readLayout (runtimeBytes ++ Cbor.openHead Cbor.arrayType :: after) =
      .error (.unexpectedType .dataSectionLengths .indefiniteArray) := by
  rw [readLayout, (readUnsigned_accepts _).bind runtime]
  exact bind_expectType_of_ne of?_openHead_array (by decide) _

theorem read_sized {count : Nat} {hash : Option Bytes} {arrayBytes hashBytes : Bytes}
    (array : Cbor.IsHead Cbor.arrayType count arrayBytes)
    (optional : IsOptionalHash count hash hashBytes) :
    read (arrayBytes ++ (hashBytes ++ rest)) = readLayout rest >>= fun layout =>
      readCompilerVersion layout.2 >>= fun version =>
        .ok (⟨hash, some layout.1, version.1⟩, version.2) := by
  have typed : Cbor.ItemType.of? (arrayBytes ++ (hashBytes ++ rest)) = some .array :=
    array.sizedType (by decide)
  rw [read, typed]
  change readArrayHead .auxdata _ >>= _ = _
  rw [(readArrayHead_accepts _).bind array]
  exact Run.bind_of_ok (readOptionalHash_reads optional rest) _

/-- After what is before the map with the version, the map is read. -/
theorem exists_read_version {before : Bytes} (compiler : Follows .compiler before)
    (typed : Cbor.ItemType.of? rest = some .map) :
    ∃ next, read (before ++ rest) = readCompilerVersion rest >>= next := by
  cases compiler with
  | compilerAlone =>
      rw [List.nil_append, read, typed]
      exact ⟨_, rfl⟩
  | compiler array optional items =>
      simp only [List.append_assoc]
      rw [read_sized array optional, readLayout_accepts.bind items]
      exact ⟨_, rfl⟩

theorem refusedField_of_isHead {container : Container} {major argument : Nat}
    {head others : Bytes}
    (isHead : Cbor.IsHead major argument head) (major_lt : major < 8) (earlier : Bytes) :
    container.refusedField (earlier ++ (head ++ others)) = container.field := by
  rcases isHead.exists_cons major_lt with ⟨first, tail, rfl, _⟩
  exact if_neg (by simp)

/-- An open container is refused for its type. -/
theorem read_open {container : Container} {before : Bytes}
    (follows : container.Follows before) :
    read (before ++ Cbor.openHead container.major :: after) =
      .error (.unexpectedType (container.refusedField before) container.openType) := by
  cases follows with
  | items => rfl
  | compilerAlone => rfl
  | sections array optional runtime =>
      rw [← List.nil_append (_ ++ (_ ++ _)), refusedField_of_isHead array (by decide)]
      simp only [List.nil_append, List.append_assoc]
      rw [read_sized array optional]
      exact Run.bind_of_error (readLayout_openSections runtime) _
  | compiler array optional items =>
      rw [← List.nil_append (_ ++ (_ ++ _)), refusedField_of_isHead array (by decide)]
      simp only [List.nil_append, List.append_assoc]
      rw [read_sized array optional, readLayout_accepts.bind items]
      exact Run.bind_of_error readCompilerVersion_openCompiler _
  | components compiler map key =>
      rw [refusedField_of_isHead map (by decide)]
      simp only [List.append_assoc]
      rcases exists_read_version compiler (map.sizedType (by decide)) with ⟨next, reads⟩
      rw [reads]
      exact Run.bind_of_error (readCompilerVersion_openComponents map key) _

end

/-- Metadata has its arrays and maps at such places. If one of them is left open
instead, whatever comes after that, then the metadata is refused for the type of that
item. Nothing is refused for an indefinite length. -/
theorem open_containers_refused {encoded : Bytes} {auxdata : VyperAuxdata}
    (decoded : decode encoded = .ok (auxdata, encoded.length)) :
    (∀ container ∈ auxdata.containers, ∃ before head after,
      container.IsAt encoded before head after) ∧
      (∀ (container : Container) (before head after : Bytes),
        container.IsAt encoded before head after →
        ∀ more, decode (before ++ Cbor.openHead container.major :: more) =
          .error (.unexpectedType (container.refusedField before) container.openType)) ∧
      ∀ input field, decode input ≠ .error (.indefiniteLength field) := by
  refine ⟨?_, ?_, isDefinite_decode⟩
  · have encoding := (decode_eq_ok_iff.mp decoded).2
    rw [List.take_length] at encoding
    exact exists_isAt encoding
  · intro container before head after isAt more
    exact Run.bind_of_error (read_open isAt.follows) _

/-! Metadata with an empty list of section lengths, and the same with that list left
open. -/

def beforeSections : Bytes := [0x84, 0x18, 0x28]

def afterSections : Bytes :=
  [0x00, 0xA1, 0x65, 0x76, 0x79, 0x70, 0x65, 0x72, 0x83, 0x00, 0x03, 0x0A]

theorem decode_emptySections :
    decode (beforeSections ++ ([0x80] ++ afterSections)) =
      .ok (⟨none, some ⟨40, [], 0⟩, .release 0 3 10⟩, 16) := by
  rfl

theorem isAt_beforeSections :
    Container.sections.IsAt (beforeSections ++ ([0x80] ++ afterSections))
      beforeSections [0x80]
      afterSections := by
  have array : Cbor.IsHead Cbor.arrayType 4 [0x84] := ⟨.short, by decide, rfl⟩
  have runtime : Cbor.IsHead Cbor.unsignedType 40 [0x18, 0x28] :=
    ⟨.oneByte, by decide, by decide⟩
  exact ⟨.sections array .without runtime, ⟨0, .short, by decide, rfl⟩, rfl⟩

theorem openSections_refused :
    decode (beforeSections ++ ([0x80] ++ afterSections)) =
        .ok (⟨none, some ⟨40, [], 0⟩, .release 0 3 10⟩, 16) ∧
      (∃ before head after,
        Container.sections.IsAt (beforeSections ++ ([0x80] ++ afterSections))
          before head after) ∧
      decode (beforeSections ++ 0x9F :: afterSections) =
        .error (.unexpectedType .dataSectionLengths .indefiniteArray) :=
  have refused := open_containers_refused decode_emptySections
  ⟨decode_emptySections, refused.1 .sections (by decide),
    refused.2.1 .sections _ _ _ isAt_beforeSections afterSections⟩

/-- An open container is not refused for its length. -/
theorem not_refused_for_length :
    ¬ ∀ (encoded : Bytes) (auxdata : VyperAuxdata) (container : Container)
      (before head after : Bytes),
      decode encoded = .ok (auxdata, encoded.length) →
        container.IsAt encoded before head after →
        decode (before ++ Cbor.openHead container.major :: after) =
          .error (.indefiniteLength container.field) := by
  intro all
  exact isDefinite_decode _ _ (all _ _ _ _ _ _ decode_emptySections isAt_beforeSections)

end VyperAuxdata

end ContractCode
