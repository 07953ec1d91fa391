import ContractCode.Proofs.PassedItems

/-! # The two passes over Solidity metadata

Solidity metadata is read twice. The first pass reads the compiler version under `solc`,
passes over the other values and tells where the map ends; the second pass takes the
bytes up to that end, lists the keys and passes over every value. Both passes are
written here with the entries that they read, and they read the same.
-/

namespace ContractCode.SolidityAuxdata

/-! ## Entries -/

structure Entry where
  key : Bytes
  /-- The bytes of the value. -/
  value : Bytes
deriving Repr, DecidableEq

/-- The bytes are these entries, one after the other. -/
inductive AreEntries : List Entry → Bytes → Prop
  | nil : AreEntries [] []
  | cons {entry : Entry} {entries : List Entry} {keyBytes others : Bytes}
      (key : Cbor.IsString Cbor.textType entry.key keyBytes)
      (valid : Utf8.isValid entry.key = true)
      (areEntries : AreEntries entries others) :
      AreEntries (entry :: entries) (keyBytes ++ (entry.value ++ others))

/-- The bytes are a map with these entries. -/
def IsMap (entries : List Entry) (bytes : Bytes) : Prop :=
  ∃ head body, Cbor.IsHead Cbor.mapType entries.length head ∧ AreEntries entries body ∧
    bytes = head ++ body

/-! ## The passes with their entries -/

/-- What has been read of the input if this is left. -/
def taken (input rest : Bytes) : Bytes := input.take (input.length - rest.length)

theorem taken_append (first rest : Bytes) : taken (first ++ rest) rest = first := by
  simp [taken]

/-- The first pass over so many entries, with the entries. -/
def readEntries? :
    (count : Nat) → (versionSeen : Bool) → Bytes → Option (List Entry × Bytes)
  | 0, _, input => some ([], input)
  | count + 1, versionSeen, input => do
    let (key, input) ← Cbor.string? Cbor.textType input
    if versionSeen && key = solcKey then none
    else
      let rest ← value? key input
      let (entries, left) ← readEntries? count (versionSeen || key = solcKey) rest
      return (⟨key, taken input rest⟩ :: entries, left)

/-- The second pass over so many entries, with the entries. -/
def passEntries? : (count : Nat) → Bytes → Option (List Entry × Bytes)
  | 0, input => some ([], input)
  | count + 1, input => do
    let (key, input) ← Cbor.string? Cbor.textType input
    let rest ← Cbor.skip? input
    let (entries, left) ← passEntries? count rest
    return (⟨key, taken input rest⟩ :: entries, left)

def firstPass? (encoded : Bytes) : Option (List Entry × Bytes) := do
  let (count, rest) ← Cbor.definite? Cbor.mapType encoded
  readEntries? count false rest

def secondPass? (encoded : Bytes) : Option (List Entry × Bytes) := do
  let (count, rest) ← Cbor.definite? Cbor.mapType encoded
  passEntries? count rest

theorem entries?_eq (count : Nat) (versionSeen : Bool) (input : Bytes) :
    entries? count versionSeen input =
      (readEntries? count versionSeen input).map Prod.snd := by
  induction count generalizing versionSeen input with
  | zero => rfl
  | succ count induction =>
      rw [entries?, readEntries?]
      cases Cbor.string? Cbor.textType input with
      | none => rfl
      | some found =>
          dsimp only [Option.bind_eq_bind, Option.bind_some]
          split
          · rfl
          · cases value? found.1 found.2 with
            | none => rfl
            | some rest =>
                dsimp only [Option.bind_some]
                rw [induction]
                cases readEntries? count (versionSeen || found.1 = solcKey) rest with
                | none => rfl
                | some read => rfl

theorem keys?_eq (count : Nat) (input : Bytes) :
    keys? count input = (passEntries? count input).map fun passed =>
      passed.1.map Entry.key := by
  induction count generalizing input with
  | zero => rfl
  | succ count induction =>
      rw [keys?, passEntries?]
      cases Cbor.string? Cbor.textType input with
      | none => rfl
      | some found =>
          dsimp only [Option.bind_eq_bind, Option.bind_some]
          cases Cbor.skip? found.2 with
          | none => rfl
          | some rest =>
              dsimp only [Option.bind_some]
              rw [induction]
              cases passEntries? count rest with
              | none => rfl
              | some passed => rfl

theorem size?_eq (encoded : Bytes) :
    size? encoded = (firstPass? encoded).map fun read =>
      encoded.length - read.2.length := by
  rw [size?, firstPass?]
  cases Cbor.definite? Cbor.mapType encoded with
  | none => rfl
  | some head =>
      dsimp only [Option.bind_eq_bind, Option.bind_some]
      rw [entries?_eq]
      cases readEntries? head.1 false head.2 with
      | none => rfl
      | some read => rfl

theorem mapKeys?_eq (encoded : Bytes) :
    mapKeys? encoded = (secondPass? encoded).map fun passed =>
      passed.1.map Entry.key := by
  rw [mapKeys?, secondPass?]
  cases Cbor.definite? Cbor.mapType encoded with
  | none => rfl
  | some head => exact keys?_eq head.1 head.2

/-! ## Values

Both passes read a version in the same way: it is a string in one piece. -/

variable {input rest bytes encoded : Bytes} {entries : List Entry}

theorem exists_isPassed_of_string? {major : Nat} {content : Bytes}
    (isString : major = Cbor.byteStringType ∨ major = Cbor.textType)
    (read : Cbor.string? major input = some (content, rest)) :
    ∃ value, Cbor.IsPassed value ∧ input = value ++ rest := by
  have major_lt : major < 8 := by rcases isString with rfl | rfl <;> decide
  rcases (Cbor.string?_eq_some_iff major_lt).mp read with ⟨valid, value, string, joined⟩
  exact ⟨value, (Cbor.IsToken.string isString (.sized string valid)).isPassed, joined⟩

theorem exists_isPassed_of_compilerVersion? (found : compilerVersion? input = some rest) :
    ∃ value, Cbor.IsPassed value ∧ input = value ++ rest := by
  rw [compilerVersion?] at found
  split at found
  · rename_i read
    split at found
    · cases found
      exact exists_isPassed_of_string? (.inl rfl) read
    · cases found
  · split at found
    · rename_i read
      rcases Option.map_eq_some_iff.mp found with ⟨version, _, rfl⟩
      exact exists_isPassed_of_string? (.inr rfl) read
    · cases found

theorem exists_isPassed_of_value? {key : Bytes} (found : value? key input = some rest) :
    ∃ value, Cbor.IsPassed value ∧ input = value ++ rest := by
  rw [value?] at found
  split at found
  · exact exists_isPassed_of_compilerVersion? found
  · exact Cbor.exists_isPassed found

/-! ## What the passes read -/

/-- The first pass has read entries whose values the second pass can pass over. -/
theorem areEntries_of_readEntries? {count : Nat} {versionSeen : Bool}
    (read : readEntries? count versionSeen input = some (entries, rest)) :
    entries.length = count ∧ (∀ entry ∈ entries, Cbor.IsPassed entry.value) ∧
      ∃ bytes, AreEntries entries bytes ∧ input = bytes ++ rest := by
  induction count generalizing versionSeen input entries with
  | zero =>
      cases read
      exact ⟨rfl, nofun, [], .nil, rfl⟩
  | succ count induction =>
      rcases Option.bind_eq_some_iff.mp read with ⟨⟨key, afterKey⟩, keyRead, checked⟩
      dsimp only at checked
      split at checked
      · cases checked
      · rcases Option.bind_eq_some_iff.mp checked with ⟨afterValue, valueRead, later⟩
        rcases Option.bind_eq_some_iff.mp later with ⟨⟨others, left⟩, othersRead, equal⟩
        cases equal
        rcases (Cbor.string?_eq_some_iff (by decide)).mp keyRead with
          ⟨valid, keyBytes, string, rfl⟩
        rcases exists_isPassed_of_value? valueRead with ⟨value, passed, rfl⟩
        rcases induction othersRead with ⟨length, passes, body, areEntries, rfl⟩
        rw [taken_append]
        refine ⟨by rw [List.length_cons, length],
          List.forall_mem_cons.mpr ⟨passed, passes⟩,
          keyBytes ++ (value ++ body), .cons string (valid rfl) areEntries, ?_⟩
        simp only [List.append_assoc]

/-- The second pass reads such entries, and it stops after them. -/
theorem AreEntries.passEntries?_append (areEntries : AreEntries entries bytes)
    (passes : ∀ entry ∈ entries, Cbor.IsPassed entry.value) (rest : Bytes) :
    passEntries? entries.length (bytes ++ rest) = some (entries, rest) := by
  induction areEntries with
  | nil => rfl
  | @cons entry entries keyBytes others key valid _ induction =>
      rw [List.forall_mem_cons] at passes
      have keyRead :
          Cbor.string? Cbor.textType (keyBytes ++ (entry.value ++ (others ++ rest))) =
          some (entry.key, entry.value ++ (others ++ rest)) :=
        (Cbor.string?_eq_some_iff (by decide)).mpr ⟨fun _ => valid, keyBytes, key, rfl⟩
      simp only [List.append_assoc, List.length_cons, passEntries?, keyRead,
        passes.1 (others ++ rest), induction passes.2, taken_append, Option.bind_eq_bind,
        Option.bind_some]
      rfl

/-- Where the first pass ends, a map ends. -/
theorem exists_isMap_of_size? {size : Nat} (found : size? encoded = some size) :
    ∃ entries, IsMap entries (encoded.take size) ∧
      (∀ entry ∈ entries, Cbor.IsPassed entry.value) ∧
      firstPass? encoded = some (entries, encoded.drop size) := by
  rw [size?_eq] at found
  rcases Option.map_eq_some_iff.mp found with ⟨⟨entries, rest⟩, first, rfl⟩
  rcases Option.bind_eq_some_iff.mp first with ⟨⟨count, afterHead⟩, headRead, read⟩
  rcases (Cbor.definite?_eq_some_iff (by decide)).mp headRead with ⟨head, isHead, rfl⟩
  rcases areEntries_of_readEntries? read with ⟨rfl, passes, body, areEntries, rfl⟩
  have ends : (head ++ (body ++ rest)).length - rest.length = (head ++ body).length := by
    simp only [List.length_append]
    omega
  refine ⟨entries, ?_, passes, ?_⟩
  · rw [ends, ← List.append_assoc, List.take_left]
    exact ⟨head, body, isHead, areEntries, rfl⟩
  · rw [first, ends, ← List.append_assoc, List.drop_left]

theorem IsMap.secondPass?_eq (isMap : IsMap entries bytes)
    (passes : ∀ entry ∈ entries, Cbor.IsPassed entry.value) :
    secondPass? bytes = some (entries, []) := by
  rcases isMap with ⟨head, body, isHead, areEntries, rfl⟩
  have read := areEntries.passEntries?_append passes []
  rw [List.append_nil] at read
  rw [secondPass?, isHead.definite?_append (by decide)]
  exact read

/-- The second pass reads the entries that the first one read, and it uses up all the
bytes that the first one took. So metadata is accepted by the first pass and refused
after all only for a key that is not known. -/
theorem passes_agree {size : Nat} (found : size? encoded = some size) :
    ∃ entries, firstPass? encoded = some (entries, encoded.drop size) ∧
      secondPass? (encoded.take size) = some (entries, []) ∧
      mapKeys? (encoded.take size) = some (entries.map Entry.key) ∧
      Auxdata.Style.solidity.decodedSize? encoded =
        if ∀ entry ∈ entries, entry.key ∈ knownKeys then some size else none := by
  rcases exists_isMap_of_size? found with ⟨entries, isMap, passes, first⟩
  have second := isMap.secondPass?_eq passes
  have keys : mapKeys? (encoded.take size) = some (entries.map Entry.key) := by
    rw [mapKeys?_eq, second]
    rfl
  refine ⟨entries, first, second, keys, ?_⟩
  simp only [Auxdata.Style.decodedSize?, metadataSize?, found, keys, Option.bind_eq_bind,
    Option.bind_some, List.all_eq_true, List.contains_iff_mem, List.forall_mem_map]

/-! A map with open arrays in a value, a version, and a key that is not known, with code
after it. -/

def mapWithOtherKey : Bytes :=
  [0xA3, 0x64, 0x69, 0x70, 0x66, 0x73, 0x9F, 0x82, 0x01, 0x9F, 0xFF, 0xFF,
    0x64, 0x73, 0x6F, 0x6C, 0x63, 0x43, 0x00, 0x08, 0x0F, 0x61, 0x61, 0xC1,
    0x00, 0xFE, 0x00]

theorem passes_agree_mapWithOtherKey :
    size? mapWithOtherKey = some 25 ∧
      ∃ entries, firstPass? mapWithOtherKey = some (entries, mapWithOtherKey.drop 25) ∧
        secondPass? (mapWithOtherKey.take 25) = some (entries, []) ∧
        mapKeys? (mapWithOtherKey.take 25) = some (entries.map Entry.key) ∧
        Auxdata.Style.solidity.decodedSize? mapWithOtherKey =
          if ∀ entry ∈ entries, entry.key ∈ knownKeys then some 25 else none :=
  have found : size? mapWithOtherKey = some 25 := by decide +kernel
  ⟨found, passes_agree found⟩

end ContractCode.SolidityAuxdata
