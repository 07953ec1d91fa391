import ContractCode.Cbor.ItemType
import Mathlib.Data.List.Induction

/-! # The forms of a head

A head takes one, two, three, five or nine bytes. The shorter forms have room for small
arguments only, and any form that has room may be used. `IsHead` lists what may be
written for an argument, and the readers of heads accept these bytes and no others.
-/

namespace ContractCode.BigEndian

/-! ## Byte strings of one width -/

theorem encode_decode (bytes : Bytes) : encode bytes.length (decode bytes) = bytes := by
  induction bytes using List.reverseRecOn with
  | nil => rfl
  | append_singleton bytes byte induction =>
    have small : byte.toNat < 256 := byte.toNat_lt
    have quotient : (decode bytes * 256 + byte.toNat) / 256 = decode bytes := by omega
    simp only [List.length_append, List.length_cons, List.length_nil,
      Nat.zero_add, encode, decode_concat, quotient, induction]
    congr 2
    apply UInt8.toNat_inj.mp
    rw [UInt8.toNat_ofNat']
    omega

theorem decode_lt (bytes : Bytes) : decode bytes < bound bytes.length := by
  induction bytes using List.reverseRecOn with
  | nil => simp [bound]
  | append_singleton bytes byte induction =>
    have small : byte.toNat < 256 := byte.toNat_lt
    simp only [decode_concat, List.length_append, List.length_cons, List.length_nil,
      Nat.zero_add, bound]
    omega

end ContractCode.BigEndian

namespace ContractCode.Cbor

/-- Where the argument is: in the first byte itself, or in so many bytes after it. -/
inductive HeadForm where
  | short | oneByte | twoBytes | fourBytes | eightBytes
deriving Repr, DecidableEq

namespace HeadForm

/-- The bytes after the first one. -/
def width : HeadForm → Nat
  | .short => 0
  | .oneByte => 1
  | .twoBytes => 2
  | .fourBytes => 4
  | .eightBytes => 8

/-- The lower five bits of the first byte. -/
def info (form : HeadForm) (argument : Nat) : Nat :=
  match form with
  | .short => argument
  | .oneByte => 24
  | .twoBytes => 25
  | .fourBytes => 26
  | .eightBytes => 27

/-- The first argument that the form has no room for. -/
def bound : HeadForm → Nat
  | .short => 24
  | form => BigEndian.bound form.width

def encode (form : HeadForm) (major argument : Nat) : Bytes :=
  UInt8.ofNat (major * 32 + form.info argument) :: BigEndian.encode form.width argument

theorem info_lt {form : HeadForm} {argument : Nat} (fits : argument < form.bound) :
    form.info argument < 28 := by
  cases form with
  | short =>
      have small : argument < 24 := fits
      exact Nat.lt_trans small (by decide)
  | oneByte | twoBytes | fourBytes | eightBytes => simp [info]

end HeadForm

/-- The bytes are a head of the major type with the argument, in some form. -/
def IsHead (major argument : Nat) (bytes : Bytes) : Prop :=
  ∃ form : HeadForm, argument < form.bound ∧ bytes = form.encode major argument

/-! ## First bytes -/

theorem head_eq_ofNat (head : UInt8) :
    head = UInt8.ofNat (majorOf head * 32 + infoOf head) := by
  rw [majorOf, infoOf, Nat.div_add_mod', UInt8.ofNat_toNat]

theorem toNat_head {major info : Nat} (major_lt : major < 8) (info_lt : info < 32) :
    (UInt8.ofNat (major * 32 + info)).toNat = major * 32 + info := by
  rw [UInt8.toNat_ofNat']
  exact Nat.mod_eq_of_lt (by omega)

theorem majorOf_head {major info : Nat} (major_lt : major < 8) (info_lt : info < 32) :
    majorOf (UInt8.ofNat (major * 32 + info)) = major := by
  rw [majorOf, toNat_head major_lt info_lt]
  omega

theorem infoOf_head {major info : Nat} (major_lt : major < 8) (info_lt : info < 32) :
    infoOf (UInt8.ofNat (major * 32 + info)) = info := by
  rw [infoOf, toNat_head major_lt info_lt]
  omega

/-- The first byte of an item that goes on up to a break. -/
def openHead (major : Nat) : UInt8 := UInt8.ofNat (major * 32 + indefiniteInfo)

theorem majorOf_openHead {major : Nat} (major_lt : major < 8) :
    majorOf (openHead major) = major :=
  majorOf_head major_lt (by decide)

theorem infoOf_openHead {major : Nat} (major_lt : major < 8) :
    infoOf (openHead major) = indefiniteInfo :=
  infoOf_head major_lt (by decide)

theorem eq_openHead {head : UInt8} (indefinite : infoOf head = indefiniteInfo) :
    head = openHead (majorOf head) := by
  rw [openHead, ← indefinite]
  exact head_eq_ofNat head

/-- The first byte of a head shows its type and that its length is definite. -/
theorem IsHead.exists_cons {major argument : Nat} {bytes : Bytes} (major_lt : major < 8)
    (isHead : IsHead major argument bytes) :
    ∃ head tail, bytes = head :: tail ∧ majorOf head = major ∧ infoOf head < 28 := by
  rcases isHead with ⟨form, fits, rfl⟩
  have info_lt := HeadForm.info_lt fits
  refine ⟨_, _, rfl, majorOf_head major_lt (by omega), ?_⟩
  rw [infoOf_head major_lt (by omega)]
  exact info_lt

/-! ## Arguments -/

theorem take?_append (content rest : Bytes) :
    take? content.length (content ++ rest) = some (content, rest) := by
  simp [take?]

theorem digits_eq_some_iff {width value : Nat} {input rest : Bytes} :
    (take? width input).map (fun taken => (BigEndian.decode taken.1, taken.2)) =
      some (value, rest) ↔
      value < BigEndian.bound width ∧ input = BigEndian.encode width value ++ rest := by
  constructor
  · intro read
    rcases Option.map_eq_some_iff.mp read with ⟨⟨digits, left⟩, taken, pair⟩
    rcases length_take? taken with ⟨joined, rfl⟩
    cases pair
    exact ⟨BigEndian.decode_lt digits, by rw [BigEndian.encode_decode, joined]⟩
  · rintro ⟨fits, rfl⟩
    have taken := take?_append (BigEndian.encode width value) rest
    rw [BigEndian.length_encode] at taken
    rw [taken, Option.map_some, BigEndian.decode_encode fits]

theorem argument?_of_ne_short {form : HeadForm} (wide : form ≠ .short) (argument : Nat)
    (input : Bytes) :
    argument? (form.info argument) input =
      (take? form.width input).map fun taken => (BigEndian.decode taken.1, taken.2) := by
  cases form with
  | short => exact absurd rfl wide
  | oneByte | twoBytes | fourBytes | eightBytes => rfl

theorem argument?_of_short {argument : Nat} (small : argument < 24) (input : Bytes) :
    argument? argument input = some (argument, input) := by
  simp only [argument?, argumentWidth?, if_pos small]

/-- The lower bits of a first byte are a short argument, or tell a form, or are of no
use. -/
theorem info_cases (info : Nat) :
    info < 24 ∨
    (∃ form : HeadForm, form ≠ .short ∧ ∀ argument, form.info argument = info) ∨
      argumentWidth? info = none := by
  rw [argumentWidth?]
  split
  · exact .inl ‹_›
  split
  · exact .inr (.inl ⟨.oneByte, nofun, fun _ => Eq.symm ‹_›⟩)
  split
  · exact .inr (.inl ⟨.twoBytes, nofun, fun _ => Eq.symm ‹_›⟩)
  split
  · exact .inr (.inl ⟨.fourBytes, nofun, fun _ => Eq.symm ‹_›⟩)
  split
  · exact .inr (.inl ⟨.eightBytes, nofun, fun _ => Eq.symm ‹_›⟩)
  · exact .inr (.inr rfl)

theorem bound_of_ne_short {form : HeadForm} (wide : form ≠ .short) :
    form.bound = BigEndian.bound form.width := by
  cases form with
  | short => exact absurd rfl wide
  | oneByte | twoBytes | fourBytes | eightBytes => rfl

theorem argument?_eq_some_iff {info value : Nat} {input rest : Bytes} :
    argument? info input = some (value, rest) ↔
      ∃ form : HeadForm, value < form.bound ∧ form.info value = info ∧
        input = BigEndian.encode form.width value ++ rest := by
  constructor
  · intro found
    rcases info_cases info with small | ⟨form, wide, tells⟩ | reserved
    · rw [argument?_of_short small] at found
      cases found
      exact ⟨.short, small, rfl, rfl⟩
    · rw [← tells value, argument?_of_ne_short wide, digits_eq_some_iff,
        ← bound_of_ne_short wide] at found
      exact ⟨form, found.1, tells value, found.2⟩
    · rw [argument?, reserved] at found
      cases found
  · rintro ⟨form, fits, rfl, rfl⟩
    by_cases wide : form = .short
    · subst wide
      exact argument?_of_short fits _
    · rw [argument?_of_ne_short wide, digits_eq_some_iff]
      rw [bound_of_ne_short wide] at fits
      exact ⟨fits, rfl⟩

/-! ## Heads -/

theorem definite?_eq_some_iff {major value : Nat} (major_lt : major < 8)
    {input rest : Bytes} :
    definite? major input = some (value, rest) ↔
      ∃ head, IsHead major value head ∧ input = head ++ rest := by
  constructor
  · intro found
    cases input with
    | nil => cases found
    | cons first tail =>
        rw [definite?] at found
        split at found
        · rename_i same
          rcases argument?_eq_some_iff.mp found with ⟨form, fits, tells, rfl⟩
          refine ⟨form.encode major value, ⟨form, fits, rfl⟩, ?_⟩
          rw [HeadForm.encode, tells, ← same, ← head_eq_ofNat, List.cons_append]
        · cases found
  · rintro ⟨_, ⟨form, fits, rfl⟩, rfl⟩
    have info_lt := HeadForm.info_lt fits
    rw [HeadForm.encode, List.cons_append, definite?,
      if_pos (majorOf_head major_lt (by omega)), infoOf_head major_lt (by omega)]
    exact argument?_eq_some_iff.mpr ⟨form, fits, rfl, rfl⟩

/-- A container of definite length is read like any other head. -/
theorem container?_eq_some_some_iff {major count : Nat} {input rest : Bytes} :
    container? major input = some (some count, rest) ↔
      definite? major input = some (count, rest) := by
  cases input with
  | nil => simp [container?, definite?]
  | cons first tail =>
      rw [container?, definite?]
      by_cases same : majorOf first = major
      · rw [if_neg (not_not_intro same), if_pos same]
        split
        · rename_i indefinite
          rw [indefinite]
          simp [argument?, argumentWidth?, indefiniteInfo]
        · simp
      · rw [if_pos same, if_neg same]
        simp

theorem container?_eq_some_none_iff {major : Nat} (major_lt : major < 8)
    {input rest : Bytes} :
    container? major input = some (none, rest) ↔ input = openHead major :: rest := by
  constructor
  · intro found
    cases input with
    | nil => cases found
    | cons first tail =>
        rw [container?] at found
        split at found
        · cases found
        · rename_i same
          split at found
          · rename_i indefinite
            cases found
            rw [← Decidable.not_not.mp same, ← eq_openHead indefinite]
          · rcases Option.map_eq_some_iff.mp found with ⟨_, _, pair⟩
            cases pair
  · rintro rfl
    rw [container?, majorOf_openHead major_lt, infoOf_openHead major_lt,
      if_neg (not_not_intro rfl), if_pos rfl]

theorem IsHead.definite?_append {major argument : Nat} {head : Bytes}
    (isHead : IsHead major argument head) (major_lt : major < 8) (rest : Bytes) :
    definite? major (head ++ rest) = some (argument, rest) :=
  (definite?_eq_some_iff major_lt).mpr ⟨head, isHead, rfl⟩

theorem IsHead.container?_append {major argument : Nat} {head : Bytes}
    (isHead : IsHead major argument head) (major_lt : major < 8) (rest : Bytes) :
    container? major (head ++ rest) = some (some argument, rest) :=
  container?_eq_some_some_iff.mpr (isHead.definite?_append major_lt rest)

/-- The bytes are a string of definite length. -/
def IsString (major : Nat) (content bytes : Bytes) : Prop :=
  ∃ head, IsHead major content.length head ∧ bytes = head ++ content

theorem take?_eq_some_iff {count : Nat} {input content rest : Bytes} :
    take? count input = some (content, rest) ↔ content.length = count ∧
    input = content ++ rest := by
  constructor
  · intro found
    exact (length_take? found).symm
  · rintro ⟨rfl, rfl⟩
    exact take?_append content rest

theorem string?_eq_some_iff {major : Nat} (major_lt : major < 8)
    {input content rest : Bytes} :
    string? major input = some (content, rest) ↔
      (major = textType → Utf8.isValid content = true) ∧
        ∃ bytes, IsString major content bytes ∧ input = bytes ++ rest := by
  rw [string?]
  constructor
  · intro found
    rcases Option.bind_eq_some_iff.mp found with
      ⟨⟨length, afterHead⟩, headed, afterLength⟩
    rcases Option.bind_eq_some_iff.mp afterLength with ⟨⟨taken, left⟩, body, checked⟩
    rcases (definite?_eq_some_iff major_lt).mp headed with ⟨head, isHead, rfl⟩
    rcases take?_eq_some_iff.mp body with ⟨rfl, rfl⟩
    dsimp only at checked
    split at checked
    · cases checked
    · rename_i valid
      cases checked
      refine ⟨?_, _, ⟨head, isHead, rfl⟩, (List.append_assoc _ _ _).symm⟩
      intro isText
      simpa [isText] using valid
  · rintro ⟨valid, _, ⟨head, isHead, rfl⟩, rfl⟩
    rw [List.append_assoc]
    simp only [isHead.definite?_append major_lt, Option.bind_eq_bind, Option.bind_some,
      take?_append]
    rw [if_neg]
    simpa using valid

/-! ## Types

The type of an item of definite length follows from the major type alone. -/

namespace ItemType

def sizedTypes : List (Nat × ItemType) :=
  [(byteStringType, .bytes), (textType, .text), (arrayType, .array), (mapType, .map)]

theorem major_lt_of_mem_sizedTypes {major : Nat} {type : ItemType}
    (sized : (major, type) ∈ sizedTypes) :
    major < 8 := by
  have all : ∀ pair ∈ sizedTypes, pair.1 < 8 := by decide
  exact all _ sized

variable {first : UInt8} {rest : Bytes}

theorem of?_of_mem_sizedTypes {found : ItemType}
    (sized : (majorOf first, found) ∈ sizedTypes)
    (definite : infoOf first < 28) : of? (first :: rest) = some found := by
  simp only [sizedTypes, List.mem_cons, Prod.mk.injEq, List.not_mem_nil,
    or_false] at sized
  rcases sized with ⟨major, rfl⟩ | ⟨major, rfl⟩ | ⟨major, rfl⟩ | ⟨major, rfl⟩ <;>
    simp [of?, ofSized, major, definite, mapType, arrayType, textType, byteStringType,
      unsignedType, negativeType]

theorem of?_of_unsigned (major : majorOf first = unsignedType)
    (definite : infoOf first < 28) :
    ∃ found, of? (first :: rest) = some found ∧ found.isUnsigned = true := by
  refine ⟨ofNumber first .u8 .u16 .u32 .u64, ?_, ?_⟩
  · rw [of?, if_pos major]
  · rw [ofNumber]
    split
    · rfl
    split
    · rfl
    split
    · rfl
    rw [if_pos (by omega)]
    rfl

end ItemType

variable {argument : Nat} {head rest : Bytes}

theorem IsHead.sizedType {major : Nat} {type : ItemType}
    (isHead : IsHead major argument head)
    (sized : (major, type) ∈ ItemType.sizedTypes) :
    ItemType.of? (head ++ rest) = some type := by
  have major_lt := ItemType.major_lt_of_mem_sizedTypes sized
  rcases isHead.exists_cons major_lt with ⟨first, tail, rfl, rfl, definite⟩
  exact ItemType.of?_of_mem_sizedTypes sized definite

theorem IsString.sizedType {major : Nat} {type : ItemType} {content bytes : Bytes}
    (isString : IsString major content bytes)
    (sized : (major, type) ∈ ItemType.sizedTypes) :
    ItemType.of? (bytes ++ rest) = some type := by
  rcases isString with ⟨head, isHead, rfl⟩
  rw [List.append_assoc]
  exact isHead.sizedType sized

theorem IsHead.unsignedType (isHead : IsHead unsignedType argument head) :
    ∃ found, ItemType.of? (head ++ rest) = some found ∧ found.isUnsigned = true := by
  rcases isHead.exists_cons (by decide) with ⟨first, tail, rfl, major, definite⟩
  exact ItemType.of?_of_unsigned major definite

end ContractCode.Cbor
