import ContractCode.Proofs.ContentHash

/-! # What follows an item

A reader that has read an item has looked at no byte after it. So an item is read in the
same way whatever follows it, and metadata has the same size at the start of longer
code.
-/

namespace ContractCode

/-- What the reader takes from the start of some bytes, it takes from the start of more
bytes. -/
structure ReadsAhead (read : Bytes → Option (α × Bytes)) : Prop where
  append : ∀ {input value rest}, read input = some (value, rest) → ∀ more,
    read (input ++ more) = some (value, rest ++ more)

/-- The same for a reader that passes over what it reads. -/
structure PassesOver (pass : Bytes → Option Bytes) : Prop where
  append : ∀ {input rest}, pass input = some rest → ∀ more,
    pass (input ++ more) = some (rest ++ more)

namespace ReadsAhead

variable {first : Bytes → Option (α × Bytes)}

theorem bind {next : α → Bytes → Option (β × Bytes)} (readsFirst : ReadsAhead first)
    (readsNext : ∀ value, ReadsAhead (next value)) :
    ReadsAhead fun input => first input >>= fun taken => next taken.1 taken.2 where
  append := by
    intro input value rest found more
    rcases Option.bind_eq_some_iff.mp found with ⟨⟨taken, left⟩, read, later⟩
    exact Option.bind_eq_some_iff.mpr
      ⟨_, readsFirst.append read more, (readsNext taken).append later more⟩

theorem passesOver {next : α → Bytes → Option Bytes} (readsFirst : ReadsAhead first)
    (passesNext : ∀ value, PassesOver (next value)) :
    PassesOver fun input => first input >>= fun taken => next taken.1 taken.2 where
  append := by
    intro input rest found more
    rcases Option.bind_eq_some_iff.mp found with ⟨⟨taken, left⟩, read, later⟩
    exact Option.bind_eq_some_iff.mpr
      ⟨_, readsFirst.append read more, (passesNext taken).append later more⟩

theorem map (reads : ReadsAhead first) (change : α → β) :
    ReadsAhead fun input => (first input).map fun taken => (change taken.1, taken.2) where
  append := by
    intro input value rest found more
    rcases Option.map_eq_some_iff.mp found with ⟨⟨taken, left⟩, read, pair⟩
    cases pair
    exact Option.map_eq_some_iff.mpr ⟨_, reads.append read more, rfl⟩

theorem skip (reads : ReadsAhead first) :
    PassesOver fun input => (first input).map Prod.snd where
  append := by
    intro input rest found more
    rcases Option.map_eq_some_iff.mp found with ⟨⟨taken, left⟩, read, rfl⟩
    exact Option.map_eq_some_iff.mpr ⟨_, reads.append read more, rfl⟩

theorem ite {condition : Prop} [Decidable condition] {second : Bytes → Option (α × Bytes)}
    (holds : ReadsAhead first) (fails : ReadsAhead second) :
    ReadsAhead fun input => if condition then first input else second input where
  append := by
    intro input value rest found more
    split
    · rename_i is
      rw [if_pos is] at found
      exact holds.append found more
    · rename_i other
      rw [if_neg other] at found
      exact fails.append found more

theorem none : ReadsAhead fun _ => (Option.none : Option (α × Bytes)) where
  append := nofun

theorem some (value : α) : ReadsAhead fun input => Option.some (value, input) where
  append := by
    intro input other rest found more
    cases found
    rfl

/-- The input may start with a byte that is known. -/
theorem afterFirst (reads : ReadsAhead first) (head : UInt8) :
    ReadsAhead fun tail => first (head :: tail) where
  append found more := reads.append found more

/-- A reader that needs a first byte. -/
theorem ofFirst (empty : first [] = Option.none)
    (reads : ∀ head, ReadsAhead fun tail => first (head :: tail)) : ReadsAhead first where
  append := by
    intro input value rest found more
    cases input with
    | nil =>
        rw [empty] at found
        cases found
    | cons head tail => exact (reads head).append found more

end ReadsAhead

theorem PassesOver.map {pass : Bytes → Option Bytes} (passes : PassesOver pass)
    (value : α) :
    ReadsAhead fun input => (pass input).map fun rest => (value, rest) where
  append := by
    intro input other rest found more
    rcases Option.map_eq_some_iff.mp found with ⟨left, passed, pair⟩
    cases pair
    exact Option.map_eq_some_iff.mpr ⟨_, passes.append passed more, rfl⟩

theorem PassesOver.bind {first next : Bytes → Option Bytes}
    (passesFirst : PassesOver first)
    (passesNext : PassesOver next) : PassesOver fun input => first input >>= next where
  append := by
    intro input rest found more
    rcases Option.bind_eq_some_iff.mp found with ⟨left, passed, later⟩
    exact Option.bind_eq_some_iff.mpr
      ⟨_, passesFirst.append passed more, passesNext.append later more⟩

namespace Cbor

/-! ## Heads and strings -/

theorem argument?_readsAhead (info : Nat) : ReadsAhead (argument? info) where
  append := by
    intro input value rest found more
    rcases argument?_eq_some_iff.mp found with ⟨form, fits, tells, rfl⟩
    exact argument?_eq_some_iff.mpr ⟨form, fits, tells, List.append_assoc _ _ _⟩

theorem definite?_readsAhead (major : Nat) : ReadsAhead (definite? major) :=
  .ofFirst rfl fun head => .ite (argument?_readsAhead (infoOf head)) .none

theorem take?_readsAhead (count : Nat) : ReadsAhead (take? count) where
  append := by
    intro input content rest found more
    rcases take?_eq_some_iff.mp found with ⟨length, rfl⟩
    exact take?_eq_some_iff.mpr ⟨length, List.append_assoc _ _ _⟩

theorem container?_readsAhead (major : Nat) : ReadsAhead (container? major) :=
  .ofFirst rfl fun head =>
    .ite .none (.ite (.some none) ((argument?_readsAhead (infoOf head)).map some))

theorem string?_readsAhead (major : Nat) : ReadsAhead (string? major) := by
  have checked : ∀ content : Bytes, ReadsAhead fun rest =>
      if major = textType && !Utf8.isValid content then none
      else some (content, rest) := by
    intro content
    constructor
    intro input value rest found more
    split at found
    · cases found
    · rename_i valid
      cases found
      rw [if_neg valid]
  exact (definite?_readsAhead major).bind fun length =>
    (take?_readsAhead length).bind checked

/-! ## Passing over an item -/

theorem pieces?_cons (major : Nat) (head : UInt8) (tail : Bytes) :
    pieces? major (head :: tail) =
      if head = breakByte then some tail
      else (string? major (head :: tail)).bind fun taken => pieces? major taken.2 := by
  rw [pieces?]
  split
  · rfl
  · split
    · rename_i missing
      rw [missing]
      rfl
    · rename_i read
      rw [read]
      rfl

theorem pieces?_passesOver (major : Nat) : PassesOver (pieces? major) where
  append := by
    intro input rest found more
    -- A piece is never empty, so the pieces after it are in shorter input.
    induction size : input.length using Nat.strongRecOn generalizing input with
    | _ length induction =>
        cases input with
        | nil =>
            rw [pieces?] at found
            cases found
        | cons head tail =>
            rw [List.cons_append, pieces?_cons]
            rw [pieces?_cons] at found
            split
            · rename_i isBreak
              rw [if_pos isBreak] at found
              cases found
              rfl
            · rename_i other
              rw [if_neg other] at found
              rcases Option.bind_eq_some_iff.mp found with ⟨⟨content, left⟩, read, later⟩
              have shorter := length_string? read
              apply Option.bind_eq_some_iff.mpr
                ⟨_, (string?_readsAhead major).append read more, ?_⟩
              exact induction left.length (by omega) later rfl

theorem skipString?_passesOver (major : Nat) : PassesOver (skipString? major) where
  append := by
    intro input rest found more
    cases input with
    | nil => cases found
    | cons head tail =>
        rw [skipString?] at found
        rw [List.cons_append, skipString?]
        split at found
        · rename_i indefinite
          rw [if_pos indefinite]
          exact (pieces?_passesOver major).append found more
        · rename_i definite
          rw [if_neg definite]
          exact (string?_readsAhead major).skip.append found more

theorem token?_readsAhead : ReadsAhead token? := by
  apply ReadsAhead.ofFirst rfl
  intro head
  have number : ∀ token : Token, ReadsAhead fun tail =>
      (argument? (infoOf head) tail).map fun taken => (token, taken.2) :=
    fun token => (argument?_readsAhead (infoOf head)).map fun _ => token
  have string : ReadsAhead fun tail =>
      (skipString? (majorOf head) (head :: tail)).map fun rest => (Token.leaf, rest) :=
    ((skipString?_passesOver (majorOf head)).map Token.leaf).afterFirst head
  have container : ∀ change : Option Nat → Token, ReadsAhead fun tail =>
      (container? (majorOf head) (head :: tail)).map fun taken =>
        (change taken.1, taken.2) :=
    fun change => ((container?_readsAhead (majorOf head)).map change).afterFirst head
  have entries := container fun entries =>
    .container (entries.map fun count => min (2 * count) largest)
  exact .ite (number Token.leaf)
    (.ite string (.ite (container Token.container) (.ite entries
    (.ite (number Token.tag) (.ite (.some Token.breakMark) (number Token.leaf))))))

theorem skipDue?_eq (due : Due) (input : Bytes) :
    skipDue? due input =
      if due.isDone then some input
      else (token? input).bind fun read =>
        match due.after? read.1 with
        | none => some read.2
        | some next => skipDue? next read.2 := by
  rw [skipDue?]
  split
  · rfl
  · split
    · rename_i missing
      rw [missing]
      rfl
    · rename_i read
      rw [read]
      rfl

theorem skipDue?_passesOver (due : Due) : PassesOver (skipDue? due) where
  append := by
    intro input rest found more
    induction size : input.length using Nat.strongRecOn generalizing due input with
    | _ length induction =>
        rw [skipDue?_eq] at found ⊢
        split
        · rename_i done
          rw [if_pos done] at found
          cases found
          rfl
        · rename_i due
          rw [if_neg due] at found
          rcases Option.bind_eq_some_iff.mp found with ⟨⟨token, left⟩, read, later⟩
          have shorter := length_token? read
          apply Option.bind_eq_some_iff.mpr ⟨_, token?_readsAhead.append read more, ?_⟩
          dsimp only at later ⊢
          split at later
          · cases later
            rfl
          · exact induction left.length (by omega) _ later rfl

theorem skip?_passesOver : PassesOver skip? :=
  skipDue?_passesOver .one

end Cbor

/-! ## Solidity metadata -/

namespace SolidityAuxdata

/-- A text is no byte string, whatever follows it. -/
theorem string?_byteString_of_text {input content rest : Bytes}
    (text : Cbor.string? Cbor.textType input = some (content, rest)) (more : Bytes) :
    Cbor.string? Cbor.byteStringType (input ++ more) = none := by
  rcases Option.bind_eq_some_iff.mp text with ⟨_, headed, _⟩
  rcases Cbor.exists_head_of_definite? headed with ⟨head, tail, rfl, isText⟩
  have other : Cbor.definite? Cbor.byteStringType (head :: tail ++ more) = none := by
    rw [List.cons_append, Cbor.definite?, isText]
    rfl
  rw [Cbor.string?, other]
  rfl

theorem compilerVersion?_passesOver : PassesOver compilerVersion? where
  append := by
    intro input rest found more
    rw [compilerVersion?] at found
    split at found
    · rename_i digits left read
      rw [compilerVersion?, (Cbor.string?_readsAhead _).append read more]
      dsimp only
      split at found
      · rename_i three
        cases found
        rw [if_pos three]
      · cases found
    · split at found
      · rename_i text left read
        rcases Option.map_eq_some_iff.mp found with ⟨version, valid, rfl⟩
        rw [compilerVersion?, string?_byteString_of_text read more]
        dsimp only
        rw [(Cbor.string?_readsAhead _).append read more]
        dsimp only
        rw [valid]
        rfl
      · cases found

theorem value?_passesOver (key : Bytes) : PassesOver (value? key) where
  append := by
    intro input rest found more
    rw [value?] at found ⊢
    split
    · rename_i version
      rw [if_pos version] at found
      exact compilerVersion?_passesOver.append found more
    · rename_i other
      rw [if_neg other] at found
      exact Cbor.skip?_passesOver.append found more

theorem entries?_passesOver (count : Nat) (versionSeen : Bool) :
    PassesOver (entries? count versionSeen) := by
  induction count generalizing versionSeen with
  | zero => exact ⟨fun found more => by cases found; rfl⟩
  | succ count induction =>
      have afterKey : ∀ key, PassesOver fun input =>
          if versionSeen && key = solcKey then none
          else value? key input >>= entries? count (versionSeen || key = solcKey) := by
        intro key
        constructor
        intro input rest found more
        split at found
        · cases found
        · rename_i first
          rw [if_neg first]
          exact ((value?_passesOver key).bind (induction _)).append found more
      exact (Cbor.string?_readsAhead Cbor.textType).passesOver afterKey

theorem size?_append {encoded : Bytes} {size : Nat} (found : size? encoded = some size)
    (more : Bytes) : size? (encoded ++ more) = some size := by
  rcases Option.bind_eq_some_iff.mp found with ⟨⟨count, afterHead⟩, head, afterEntries⟩
  rcases Option.bind_eq_some_iff.mp afterEntries with ⟨rest, entries, length⟩
  cases length
  apply Option.bind_eq_some_iff.mpr
    ⟨_, (Cbor.definite?_readsAhead Cbor.mapType).append head more, ?_⟩
  apply Option.bind_eq_some_iff.mpr
    ⟨_, (entries?_passesOver count false).append entries more, ?_⟩
  simp only [List.length_append, Nat.add_sub_add_right]
  rfl

theorem size?_le {encoded : Bytes} {size : Nat} (found : size? encoded = some size) :
    size ≤ encoded.length := by
  rcases Option.bind_eq_some_iff.mp found with ⟨_, _, afterEntries⟩
  rcases Option.bind_eq_some_iff.mp afterEntries with ⟨rest, _, length⟩
  cases length
  exact Nat.sub_le _ _

theorem metadataSize?_append {encoded : Bytes} {size : Nat}
    (found : metadataSize? encoded = some size) (more : Bytes) :
    metadataSize? (encoded ++ more) = some size := by
  rcases Option.bind_eq_some_iff.mp found with ⟨found, ends, keys⟩
  apply Option.bind_eq_some_iff.mpr ⟨found, size?_append ends more, ?_⟩
  rw [List.take_append_of_le_length (size?_le ends)]
  exact keys

end SolidityAuxdata

namespace VyperAuxdata

theorem decode_append {encoded : Bytes} {auxdata : VyperAuxdata} {size : Nat}
    (decoded : decode encoded = .ok (auxdata, size)) (more : Bytes) :
    decode (encoded ++ more) = .ok (auxdata, size) := by
  rcases decode_eq_ok_iff.mp decoded with ⟨fits, encoding⟩
  apply decode_eq_ok_iff.mpr
  rw [List.length_append, List.take_append_of_le_length fits]
  exact ⟨by omega, encoding⟩

end VyperAuxdata

/-! ## Metadata at the start of code -/

namespace Auxdata

variable {style : Style} {code : Bytes} {size : Nat}

theorem Style.decodedSize?_append (found : style.decodedSize? code = some size)
    (more : Bytes) :
    style.decodedSize? (code ++ more) = some size := by
  rw [Style.decodedSize?.eq_def] at found ⊢
  split at found
  · exact SolidityAuxdata.metadataSize?_append found more
  · split at found
    · rename_i decoded
      cases found
      rw [VyperAuxdata.decode_append decoded more]
    · cases found

theorem isMetadata_iff {bytes : Bytes} :
    isMetadata style bytes = true ↔
      bytes ≠ [] ∧ style.decodedSize? bytes = some bytes.length := by
  simp [isMetadata]

theorem trailerSize_le_of_isChunk {chunk : Bytes} (isChunk : isChunk style chunk = true) :
    style.trailerSize ≤ chunk.length := by
  rw [Style.trailerSize]
  split
  · rename_i suffix
    exact ((isChunk_iff_of_suffix suffix).mp isChunk).1
  · exact Nat.zero_le _

/-- The chunk at the start of code is found exactly if there is one, and code starts
with one at most. -/
theorem leadingChunkSize?_eq_some_iff :
    leadingChunkSize? style code = some size ↔
      size ≤ code.length ∧ isChunk style (code.take size) = true := by
  rw [leadingChunkSize?]
  constructor
  · intro found
    rcases Option.bind_eq_some_iff.mp found with ⟨encoded, _, afterSize⟩
    rcases Option.bind_eq_some_iff.mp afterSize with ⟨chunk, sliced, checked⟩
    rcases Bytes.slice?_eq_some_iff.mp sliced with ⟨within, rfl⟩
    have length := Bytes.length_slice within
    split at checked
    · rename_i chunk
      cases checked
      rw [length]
      simp only [Span.Within, Span.stop, Nat.zero_add] at within
      exact ⟨within, chunk⟩
    · cases checked
  · rintro ⟨fits, chunk⟩
    have length : (code.take size).length = size := List.length_take_of_le fits
    have trailer := trailerSize_le_of_isChunk chunk
    have metadata := (isMetadata_iff.mp (isMetadata_of_isChunk chunk)).2
    rw [length] at trailer
    -- The metadata of the chunk is decoded in the same way with all the code behind it.
    have decoded : style.decodedSize? code = some (size - style.trailerSize) := by
      have inside : size - style.trailerSize ≤ size := Nat.sub_le _ _
      rw [metadataOfChunk, length, List.take_take, Nat.min_eq_left inside] at metadata
      have whole :=
        Style.decodedSize?_append metadata (code.drop (size - style.trailerSize))
      rw [List.take_append_drop,
        List.length_take_of_le (Nat.le_trans inside fits)] at whole
      exact whole
    apply Option.bind_eq_some_iff.mpr ⟨_, decoded, ?_⟩
    rw [Nat.sub_add_cancel trailer]
    apply Option.bind_eq_some_iff.mpr ⟨code.take size,
      Bytes.slice?_eq_some_iff.mpr ⟨?_, rfl⟩, ?_⟩
    · simp only [Span.Within, Span.stop, Nat.zero_add]
      exact fits
    · rw [if_pos chunk, length]

end Auxdata

end ContractCode
