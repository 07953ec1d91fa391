import ContractCode.CompiledCode
import ContractCode.Proofs.Run

/-! # The text of compiled code

Compiled code is written in pieces: two digits for each byte, and placeholders. Reading
it and showing it again gives the same pieces with the digits in lower case, and showing
code and reading it again gives the same code.
-/

namespace ContractCode

/-! ## Digits -/

namespace Hex

theorem digitAt_eq_ok_iff {position value : Nat} {character : Char} :
    digitAt position character = .ok value ↔ digitValue? character = some value := by
  rw [digitAt]
  split
  · rename_i found
    simp [found]
  · rename_i none
    simp [none]

theorem decodeFrom_cons_cons_eq_ok_iff {position : Nat} {high low : Char}
    {rest : List Char}
    {bytes : Bytes} :
    decodeFrom position (high :: low :: rest) = .ok bytes ↔
      ∃ highValue lowValue others, digitValue? high = some highValue ∧
        digitValue? low = some lowValue ∧ decodeFrom (position + 2) rest = .ok others ∧
        bytes = UInt8.ofNat (highValue * 16 + lowValue) :: others := by
  rw [decodeFrom]
  constructor
  · intro decoded
    rcases Run.bind_eq_ok_iff.mp decoded with ⟨highValue, first, afterHigh⟩
    rcases Run.bind_eq_ok_iff.mp afterHigh with ⟨lowValue, second, afterLow⟩
    rcases Run.bind_eq_ok_iff.mp afterLow with ⟨others, later, last⟩
    cases last
    exact ⟨highValue, lowValue, others, digitAt_eq_ok_iff.mp first,
      digitAt_eq_ok_iff.mp second, later, rfl⟩
  · rintro ⟨highValue, lowValue, others, first, second, later, rfl⟩
    apply Run.bind_eq_ok_iff.mpr ⟨highValue, digitAt_eq_ok_iff.mpr first, ?_⟩
    apply Run.bind_eq_ok_iff.mpr ⟨lowValue, digitAt_eq_ok_iff.mpr second, ?_⟩
    exact Run.bind_eq_ok_iff.mpr ⟨others, later, rfl⟩

/-- Where digits stand matters for the report of a mistake only. -/
theorem decodeFrom_eq_ok_iff_decode {position : Nat} {text : List Char} {bytes : Bytes} :
    decodeFrom position text = .ok bytes ↔ decode text = .ok bytes := by
  rw [decode]
  generalize 0 = other
  induction position, text using decodeFrom.induct generalizing bytes other with
  | case1 position => rfl
  | case2 position character => simp [decodeFrom]
  | case3 position high low rest induction =>
      simp only [decodeFrom_cons_cons_eq_ok_iff, induction (other + 2)]

/-- The byte of two digits, which is nought if they are none. -/
def byteOf (high low : Char) : UInt8 :=
  UInt8.ofNat ((digitValue? high).getD 0 * 16 + (digitValue? low).getD 0)

theorem decode_cons_cons_eq_ok_iff {high low : Char} {rest : List Char} {bytes : Bytes} :
    decode (high :: low :: rest) = .ok bytes ↔
      (digitValue? high).isSome ∧ (digitValue? low).isSome ∧
        ∃ others, decode rest = .ok others ∧ bytes = byteOf high low :: others := by
  rw [decode, decodeFrom_cons_cons_eq_ok_iff]
  simp only [decodeFrom_eq_ok_iff_decode, Option.isSome_iff_exists]
  constructor
  · rintro ⟨highValue, lowValue, others, first, second, later, rfl⟩
    refine ⟨⟨highValue, first⟩, ⟨lowValue, second⟩, others, later, ?_⟩
    rw [byteOf, first, second, Option.getD_some, Option.getD_some]
  · rintro ⟨⟨highValue, first⟩, ⟨lowValue, second⟩, others, later, rfl⟩
    refine ⟨highValue, lowValue, others, first, second, later, ?_⟩
    rw [byteOf, first, second, Option.getD_some, Option.getD_some]

theorem toNat_lt_of_digitValue? {character : Char} {value : Nat}
    (found : digitValue? character = some value) : character.toNat < 128 := by
  apply Decidable.byContradiction
  intro other
  rw [digitValue?, if_neg (by omega), if_neg (by omega), if_neg (by omega)] at found
  cases found

/-- A digit is shown in lower case. -/
theorem digit_of_digitValue? {character : Char} {value : Nat}
    (found : digitValue? character = some value) : digit value = character.toLower := by
  have all : ∀ code : Fin 128, (digitValue? (Char.ofNat code)).all
      (fun value => digit value == (Char.ofNat code).toLower) = true := by decide
  have shown := all ⟨character.toNat, toNat_lt_of_digitValue? found⟩
  simp only [Char.ofNat_toNat, found, Option.all_some] at shown
  exact eq_of_beq shown

theorem digitValue?_toLower {character : Char}
    (isDigit : (digitValue? character).isSome) :
    digitValue? character.toLower = digitValue? character := by
  rcases Option.isSome_iff_exists.mp isDigit with ⟨value, found⟩
  rw [← digit_of_digitValue? found, digitValue?_digit (digitValue?_lt found), found]

theorem encode_byteOf {high low : Char} (isHigh : (digitValue? high).isSome)
    (isLow : (digitValue? low).isSome) :
    encode [byteOf high low] = [high.toLower, low.toLower] := by
  rcases Option.isSome_iff_exists.mp isHigh with ⟨highValue, highFound⟩
  rcases Option.isSome_iff_exists.mp isLow with ⟨lowValue, lowFound⟩
  have highSmall := digitValue?_lt highFound
  have lowSmall := digitValue?_lt lowFound
  have value : (byteOf high low).toNat = highValue * 16 + lowValue := by
    rw [byteOf, highFound, lowFound, Option.getD_some, Option.getD_some,
      UInt8.toNat_ofNat']
    exact Nat.mod_eq_of_lt (by omega)
  have highPart : (highValue * 16 + lowValue) / 16 = highValue := by omega
  have lowPart : (highValue * 16 + lowValue) % 16 = lowValue := by omega
  rw [encode_cons, value, highPart, lowPart, digit_of_digitValue? highFound,
    digit_of_digitValue? lowFound, encode_nil]

end Hex

/-- The bytes that the placeholder stands for. -/
def Placeholder.span (placeholder : Placeholder) : Span :=
  ⟨placeholder.offset, Placeholder.byteLength⟩

namespace CompiledCode

/-! ## Pieces -/

inductive Piece where
  /-- The two digits of a byte. -/
  | byte (high low : Char)
  | placeholder (text : List Char)
deriving Repr, DecidableEq

namespace Piece

def IsWellFormed : Piece → Prop
  | .byte high low => (Hex.digitValue? high).isSome ∧ (Hex.digitValue? low).isSome
  | .placeholder text => text.length = Placeholder.textLength ∧ ['_', '_'] <+: text

def text : Piece → List Char
  | .byte high low => [high, low]
  | .placeholder text => text

/-- The piece with its digits in lower case. -/
def lowered : Piece → Piece
  | .byte high low => .byte high.toLower low.toLower
  | .placeholder text => .placeholder text

def bytes : Piece → Bytes
  | .byte high low => [Hex.byteOf high low]
  | .placeholder _ => List.replicate Placeholder.byteLength 0

end Piece

def textOf (pieces : List Piece) : List Char := pieces.flatMap Piece.text

def bytesOf (pieces : List Piece) : Bytes := pieces.flatMap Piece.bytes

@[simp] theorem textOf_cons (piece : Piece) (pieces : List Piece) :
    textOf (piece :: pieces) = piece.text ++ textOf pieces := rfl

@[simp] theorem bytesOf_cons (piece : Piece) (pieces : List Piece) :
    bytesOf (piece :: pieces) = piece.bytes ++ bytesOf pieces := rfl

/-- The placeholders of pieces of which the first byte has the given offset. -/
def placeholdersFrom (offset : Nat) : List Piece → List Placeholder
  | [] => []
  | .byte _ _ :: pieces => placeholdersFrom (offset + 1) pieces
  | .placeholder text :: pieces =>
    ⟨offset, String.ofList text⟩ ::
      placeholdersFrom (offset + Placeholder.byteLength) pieces

def ofPieces (offset : Nat) (pieces : List Piece) : CompiledCode :=
  ⟨bytesOf pieces, placeholdersFrom offset pieces⟩

/-! ## Reading pieces -/

theorem decodeDigits_eq_ok_iff {digits : List Char} {bytes : Bytes} :
    decodeDigits digits = .ok bytes ↔ Hex.decode digits = .ok bytes := by
  rw [decodeDigits]
  split
  · rename_i found
    simp [found]
  · rename_i failed
    simp [failed]
  · rename_i failed
    simp [failed]

/-- Digits in front of segments are read as a byte in front of their code. -/
theorem ofSegments_addPair_eq_ok_iff {offset : Nat} {high low : Char}
    {segments : Segments}
    {compiled : CompiledCode} :
    ofSegments offset (segments.addPair high low) = .ok compiled ↔
      (Hex.digitValue? high).isSome ∧ (Hex.digitValue? low).isSome ∧
        ∃ following, ofSegments (offset + 1) segments = .ok following ∧
          compiled = ⟨Hex.byteOf high low :: following.code, following.placeholders⟩ := by
  cases segments with
  | last digits =>
      rw [Segments.addPair, ofSegments, ofSegments]
      simp only [Run.bind_eq_ok_iff, decodeDigits_eq_ok_iff,
        Hex.decode_cons_cons_eq_ok_iff, Run.pure_eq_ok_iff]
      constructor
      · rintro ⟨_, ⟨isHigh, isLow, others, decoded, rfl⟩, rfl⟩
        exact ⟨isHigh, isLow, .ofBytes others, ⟨others, decoded, rfl⟩, rfl⟩
      · rintro ⟨isHigh, isLow, _, ⟨others, decoded, rfl⟩, rfl⟩
        exact ⟨_, ⟨isHigh, isLow, others, decoded, rfl⟩, rfl⟩
  | truncated digits placeholderOffset =>
      rw [Segments.addPair, ofSegments, ofSegments]
      simp
  | linked digits placeholder following =>
      rw [Segments.addPair, ofSegments, ofSegments]
      simp only [Run.bind_eq_ok_iff, decodeDigits_eq_ok_iff,
        Hex.decode_cons_cons_eq_ok_iff, Run.pure_eq_ok_iff]
      have moved : ∀ others : Bytes,
          offset + (others.length + 1) = offset + 1 + others.length := by
        intro others
        omega
      constructor
      · rintro ⟨_, ⟨isHigh, isLow, others, decoded, rfl⟩, later, read, rfl⟩
        rw [List.length_cons, moved] at read
        refine ⟨isHigh, isLow, _, ⟨others, decoded, later, read, rfl⟩, ?_⟩
        simp [addSegment, moved]
      · rintro ⟨isHigh, isLow, _, ⟨others, decoded, later, read, rfl⟩, rfl⟩
        refine ⟨_, ⟨isHigh, isLow, others, decoded, rfl⟩, later, ?_, ?_⟩
        · rw [List.length_cons, moved]
          exact read
        · simp [addSegment, moved]

theorem ofText_byte {offset : Nat} {high low : Char} {rest : List Char}
    (other : ¬ (high = '_' ∧ low = '_')) :
    Segments.ofText offset (high :: low :: rest) =
      (Segments.ofText (offset + 1) rest).addPair high low := by
  rw [Segments.ofText, if_neg other]

theorem ofText_placeholder {offset : Nat} {placeholder rest : List Char}
    (length : placeholder.length = Placeholder.textLength)
    (starts : ['_', '_'] <+: placeholder) :
    Segments.ofText offset (placeholder ++ rest) =
      .linked [] placeholder
        (Segments.ofText (offset + Placeholder.byteLength) rest) := by
  rcases starts with ⟨others, rfl⟩
  have size : others.length = Placeholder.textLength - 2 := by
    rw [List.length_append] at length
    exact Nat.eq_sub_of_add_eq' length
  have long : ¬ ('_' :: '_' :: (others ++ rest)).length < Placeholder.textLength := by
    simp only [List.length_cons, List.length_append, size, Placeholder.textLength]
    omega
  have taken : ('_' :: '_' :: (others ++ rest)).take Placeholder.textLength =
      ['_', '_'] ++ others := List.take_left' length
  change Segments.ofText offset ('_' :: '_' :: (others ++ rest)) = _
  rw [Segments.ofText, if_pos ⟨rfl, rfl⟩, if_neg long, taken, List.drop_left' size]

/-- The pieces are read one after another. -/
theorem ofSegments_textOf {pieces : List Piece}
    (wellFormed : ∀ piece ∈ pieces, piece.IsWellFormed)
    (offset : Nat) :
    ofSegments offset (Segments.ofText offset (textOf pieces)) =
      .ok (ofPieces offset pieces) := by
  induction pieces generalizing offset with
  | nil =>
      change ofSegments offset (Segments.ofText offset []) = _
      rw [Segments.ofText]
      rfl
  | cons piece pieces induction =>
      rcases List.forall_mem_cons.mp wellFormed with ⟨first, others⟩
      cases piece with
      | byte high low =>
          have other : ¬ (high = '_' ∧ low = '_') := by
            rintro ⟨rfl, rfl⟩
            exact absurd first.1 (by decide)
          change ofSegments offset
            (Segments.ofText offset (high :: low :: textOf pieces)) = _
          rw [ofText_byte other]
          exact ofSegments_addPair_eq_ok_iff.mpr
            ⟨first.1, first.2, _, induction others (offset + 1), rfl⟩
      | placeholder text =>
          change ofSegments offset (Segments.ofText offset (text ++ textOf pieces)) = _
          rw [ofText_placeholder first.1 first.2, ofSegments]
          apply Run.bind_eq_ok_iff.mpr ⟨[], rfl, ?_⟩
          exact Run.bind_eq_ok_iff.mpr
            ⟨_, induction others (offset + Placeholder.byteLength), rfl⟩

/-- What is read is made of pieces. -/
theorem exists_pieces_of_ofSegments {offset : Nat} {text : List Char}
    {compiled : CompiledCode}
    (read : ofSegments offset (Segments.ofText offset text) = .ok compiled) :
    ∃ pieces, (∀ piece ∈ pieces, piece.IsWellFormed) ∧ text = textOf pieces ∧
      compiled = ofPieces offset pieces := by
  induction offset, text using Segments.ofText.induct generalizing compiled with
  | case1 offset =>
      rw [Segments.ofText] at read
      cases read
      exact ⟨[], nofun, rfl, rfl⟩
  | case2 offset character =>
      rw [Segments.ofText] at read
      cases read
  | case3 offset high low rest marks short =>
      rw [Segments.ofText, if_pos marks, if_pos short] at read
      cases read
  | case4 offset high low rest marks long induction =>
      rw [Segments.ofText, if_pos marks, if_neg long, ofSegments] at read
      rcases Run.bind_eq_ok_iff.mp read with ⟨bytes, empty, afterDigits⟩
      rcases Run.bind_eq_ok_iff.mp afterDigits with ⟨following, later, last⟩
      cases empty
      cases last
      rcases induction later with ⟨pieces, wellFormed, same, rfl⟩
      rcases marks with ⟨rfl, rfl⟩
      refine ⟨.placeholder (('_' :: '_' :: rest).take Placeholder.textLength) :: pieces,
        ?_, ?_, rfl⟩
      · apply List.forall_mem_cons.mpr ⟨?_, wellFormed⟩
        exact ⟨List.length_take_of_le (Nat.not_lt.mp long),
          rest.take (Placeholder.textLength - 2), rfl⟩
      · change _ = _ ++ textOf pieces
        rw [← same]
        exact (List.take_append_drop Placeholder.textLength ('_' :: '_' :: rest)).symm
  | case5 offset high low rest other induction =>
      rw [ofText_byte other] at read
      rcases ofSegments_addPair_eq_ok_iff.mp read with
        ⟨isHigh, isLow, following, later, rfl⟩
      rcases induction later with ⟨pieces, wellFormed, rfl, rfl⟩
      exact ⟨.byte high low :: pieces,
        List.forall_mem_cons.mpr ⟨⟨isHigh, isLow⟩, wellFormed⟩, rfl, rfl⟩

theorem length_textOf {pieces : List Piece}
    (wellFormed : ∀ piece ∈ pieces, piece.IsWellFormed) :
    (textOf pieces).length = 2 * (bytesOf pieces).length := by
  induction pieces with
  | nil => rfl
  | cons piece pieces induction =>
      rcases List.forall_mem_cons.mp wellFormed with ⟨first, others⟩
      rw [textOf_cons, bytesOf_cons, List.length_append, List.length_append,
        induction others, Nat.mul_add]
      congr 1
      cases piece with
      | byte high low => rfl
      | placeholder text =>
          rw [Piece.text, Piece.bytes, first.1, List.length_replicate]
          rfl

theorem parse_eq_ok_iff {text : String} {compiled : CompiledCode} :
    parse text = .ok compiled ↔
      (Hex.withoutMark text.toList).all Ascii.isAscii = true ∧
        ∃ pieces, (∀ piece ∈ pieces, piece.IsWellFormed) ∧
          Hex.withoutMark text.toList = textOf pieces ∧ compiled = ofPieces 0 pieces := by
  rw [parse]
  constructor
  · intro read
    split at read
    · cases read
    · rename_i ascii
      split at read
      · cases read
      · exact ⟨by simpa using ascii, exists_pieces_of_ofSegments read⟩
  · rintro ⟨ascii, pieces, wellFormed, same, rfl⟩
    have even : ¬ (Hex.withoutMark text.toList).length % 2 ≠ 0 := by
      rw [same, length_textOf wellFormed, Nat.mul_mod_right]
      decide
    simp only [ascii, Bool.not_true, Bool.false_eq_true, if_false, if_neg even]
    rw [same]
    exact ofSegments_textOf wellFormed 0

/-! ## Showing pieces -/

/-- The bytes since the last placeholder are shown together; they are kept apart as
`segment`. -/
theorem renderFrom_pieces {pieces : List Piece}
    (wellFormed : ∀ piece ∈ pieces, piece.IsWellFormed)
    (shown segment : Bytes) :
    renderFrom (shown ++ segment ++ bytesOf pieces) shown.length
        (placeholdersFrom (shown.length + segment.length) pieces) =
      Hex.encode segment ++ textOf (pieces.map Piece.lowered) := by
  induction pieces generalizing shown segment with
  | nil =>
      simp [renderFrom, placeholdersFrom, bytesOf, textOf]
  | cons piece pieces induction =>
      rcases List.forall_mem_cons.mp wellFormed with ⟨first, others⟩
      cases piece with
      | byte high low =>
          have code : shown ++ segment ++ bytesOf (.byte high low :: pieces) =
              shown ++ (segment ++ [Hex.byteOf high low]) ++ bytesOf pieces := by
            simp [Piece.bytes]
          have offset : shown.length + segment.length + 1 =
              shown.length + (segment ++ [Hex.byteOf high low]).length := by
            simp [Nat.add_assoc]
          rw [code, placeholdersFrom, offset, induction others, Hex.encode_append,
            Hex.encode_byteOf first.1 first.2]
          simp [Piece.lowered, Piece.text]
      | placeholder text =>
          have code : shown ++ segment ++ bytesOf (.placeholder text :: pieces) =
              (shown ++ segment ++ List.replicate Placeholder.byteLength 0) ++ [] ++
                bytesOf pieces := by
            simp [Piece.bytes]
          have offset :
              (shown ++ segment ++ List.replicate Placeholder.byteLength 0).length =
              shown.length + segment.length + Placeholder.byteLength := by
            simp [Nat.add_assoc]
          have slice :
              Bytes.slice (shown ++ segment ++ bytesOf (.placeholder text :: pieces))
              ⟨shown.length, shown.length + segment.length - shown.length⟩ = segment := by
            simp [Bytes.slice]
          have rest :=
            induction others
              (shown ++ segment ++ List.replicate Placeholder.byteLength 0) []
          rw [← code, offset, List.length_nil, Nat.add_zero] at rest
          rw [placeholdersFrom, renderFrom, slice, rest]
          simp [Piece.lowered, Piece.text]

theorem render_ofPieces {pieces : List Piece}
    (wellFormed : ∀ piece ∈ pieces, piece.IsWellFormed) :
    (ofPieces 0 pieces).render.toList =
      '0' :: 'x' :: textOf (pieces.map Piece.lowered) := by
  rw [render, String.toList_ofList]
  exact congrArg (fun digits => '0' :: 'x' :: digits) (renderFrom_pieces wellFormed [] [])

/-! Writing digits in lower case changes neither the bytes nor the placeholders. -/

theorem Piece.isWellFormed_lowered {piece : Piece} (wellFormed : piece.IsWellFormed) :
    piece.lowered.IsWellFormed := by
  cases piece with
  | byte high low =>
      rw [Piece.lowered, IsWellFormed, Hex.digitValue?_toLower wellFormed.1,
        Hex.digitValue?_toLower wellFormed.2]
      exact wellFormed
  | placeholder text => exact wellFormed

theorem Piece.bytes_lowered {piece : Piece} (wellFormed : piece.IsWellFormed) :
    piece.lowered.bytes = piece.bytes := by
  cases piece with
  | byte high low =>
      rw [Piece.lowered, Piece.bytes, Piece.bytes, Hex.byteOf,
        Hex.digitValue?_toLower wellFormed.1, Hex.digitValue?_toLower wellFormed.2,
        ← Hex.byteOf]
  | placeholder text => rfl

theorem Piece.isAscii_text_lowered {piece : Piece} (wellFormed : piece.IsWellFormed)
    (ascii : piece.text.all Ascii.isAscii = true) :
    piece.lowered.text.all Ascii.isAscii = true := by
  cases piece with
  | byte high low =>
      have digit : ∀ character : Char, (Hex.digitValue? character).isSome →
          Ascii.isAscii character.toLower = true := by
        intro character isDigit
        rw [← Hex.digitValue?_toLower isDigit] at isDigit
        rcases Option.isSome_iff_exists.mp isDigit with ⟨value, found⟩
        exact decide_eq_true (Hex.toNat_lt_of_digitValue? found)
      simp [Piece.lowered, Piece.text, digit high wellFormed.1, digit low wellFormed.2]
  | placeholder text => exact ascii

theorem wellFormed_lowered {pieces : List Piece}
    (wellFormed : ∀ piece ∈ pieces, piece.IsWellFormed) :
    ∀ piece ∈ pieces.map Piece.lowered, piece.IsWellFormed := by
  intro piece member
  rcases List.mem_map.mp member with ⟨original, inPieces, rfl⟩
  exact Piece.isWellFormed_lowered (wellFormed original inPieces)

theorem bytesOf_lowered {pieces : List Piece}
    (wellFormed : ∀ piece ∈ pieces, piece.IsWellFormed) :
    bytesOf (pieces.map Piece.lowered) = bytesOf pieces := by
  induction pieces with
  | nil => rfl
  | cons piece pieces induction =>
      rcases List.forall_mem_cons.mp wellFormed with ⟨first, others⟩
      rw [List.map_cons, bytesOf_cons, bytesOf_cons, Piece.bytes_lowered first,
        induction others]

theorem isAscii_textOf_lowered {pieces : List Piece}
    (wellFormed : ∀ piece ∈ pieces, piece.IsWellFormed)
    (ascii : (textOf pieces).all Ascii.isAscii = true) :
    (textOf (pieces.map Piece.lowered)).all Ascii.isAscii = true := by
  induction pieces with
  | nil => rfl
  | cons piece pieces induction =>
      rcases List.forall_mem_cons.mp wellFormed with ⟨first, others⟩
      rw [textOf_cons, List.all_append, Bool.and_eq_true] at ascii
      rw [List.map_cons, textOf_cons, List.all_append, Bool.and_eq_true]
      exact ⟨Piece.isAscii_text_lowered first ascii.1, induction others ascii.2⟩

theorem placeholdersFrom_lowered (offset : Nat) (pieces : List Piece) :
    placeholdersFrom offset (pieces.map Piece.lowered) =
      placeholdersFrom offset pieces := by
  induction pieces generalizing offset with
  | nil => rfl
  | cons piece pieces induction =>
      cases piece with
      | byte high low => exact induction (offset + 1)
      | placeholder text =>
          exact congrArg (List.cons _) (induction (offset + Placeholder.byteLength))

theorem parse_render_ofPieces {pieces : List Piece}
    (wellFormed : ∀ piece ∈ pieces, piece.IsWellFormed)
    (ascii : (textOf pieces).all Ascii.isAscii = true) :
    parse (ofPieces 0 pieces).render = .ok (ofPieces 0 pieces) := by
  apply parse_eq_ok_iff.mpr
  rw [render_ofPieces wellFormed]
  refine ⟨isAscii_textOf_lowered wellFormed ascii, _,
    wellFormed_lowered wellFormed, rfl, ?_⟩
  rw [ofPieces, ofPieces, bytesOf_lowered wellFormed, placeholdersFrom_lowered]

/-! Any bytes are the code of pieces. -/

def Piece.ofByte (byte : UInt8) : Piece :=
  .byte (Hex.digit (byte.toNat / 16)) (Hex.digit (byte.toNat % 16))

theorem Piece.digitValue?_ofByte (byte : UInt8) :
    Hex.digitValue? (Hex.digit (byte.toNat / 16)) = some (byte.toNat / 16) ∧
      Hex.digitValue? (Hex.digit (byte.toNat % 16)) = some (byte.toNat % 16) := by
  have small : byte.toNat < 256 := byte.toNat_lt
  exact ⟨Hex.digitValue?_digit (by omega), Hex.digitValue?_digit (by omega)⟩

theorem Piece.isWellFormed_ofByte (byte : UInt8) : (Piece.ofByte byte).IsWellFormed := by
  rcases digitValue?_ofByte byte with ⟨high, low⟩
  exact ⟨Option.isSome_iff_exists.mpr ⟨_, high⟩, Option.isSome_iff_exists.mpr ⟨_, low⟩⟩

theorem Piece.isAscii_text_ofByte (byte : UInt8) :
    (Piece.ofByte byte).text.all Ascii.isAscii = true := by
  rcases digitValue?_ofByte byte with ⟨high, low⟩
  simp [ofByte, text, Ascii.isAscii, Hex.toNat_lt_of_digitValue? high,
    Hex.toNat_lt_of_digitValue? low]

theorem Piece.bytes_ofByte (byte : UInt8) : (Piece.ofByte byte).bytes = [byte] := by
  rcases digitValue?_ofByte byte with ⟨high, low⟩
  have joined : byte.toNat / 16 * 16 + byte.toNat % 16 = byte.toNat := by omega
  rw [ofByte, bytes, Hex.byteOf, high, low, Option.getD_some, Option.getD_some, joined,
    UInt8.ofNat_toNat]

theorem bytesOf_ofByte (code : Bytes) : bytesOf (code.map Piece.ofByte) = code := by
  induction code with
  | nil => rfl
  | cons byte code induction =>
      rw [List.map_cons, bytesOf_cons, Piece.bytes_ofByte, induction,
        List.singleton_append]

theorem placeholdersFrom_ofByte (offset : Nat) (code : Bytes) :
    placeholdersFrom offset (code.map Piece.ofByte) = [] := by
  induction code generalizing offset with
  | nil => rfl
  | cons byte code induction => exact induction (offset + 1)

theorem ofPieces_ofByte (code : Bytes) :
    ofPieces 0 (code.map Piece.ofByte) = ofBytes code := by
  rw [ofPieces, bytesOf_ofByte, placeholdersFrom_ofByte, ofBytes]

theorem parse_render_ofBytes (code : Bytes) :
    parse (ofBytes code).render = .ok (ofBytes code) := by
  rw [← ofPieces_ofByte code]
  apply parse_render_ofPieces
  · intro piece member
    rcases List.mem_map.mp member with ⟨byte, _, rfl⟩
    exact Piece.isWellFormed_ofByte byte
  · rw [textOf, List.all_flatMap, List.all_map, List.all_eq_true]
    intro byte _
    exact Piece.isAscii_text_ofByte byte

/-! ## Where placeholders are -/

/-- The placeholder is forty characters of text in the place of twenty zero bytes of the
code. -/
structure IsPlaced (code : Bytes) (placeholder : Placeholder) : Prop where
  length : placeholder.text.toList.length = Placeholder.textLength
  marks : ['_', '_'] <+: placeholder.text.toList
  ascii : placeholder.text.toList.all Ascii.isAscii = true
  within : placeholder.span.Within code.length
  zero : code.slice placeholder.span = List.replicate Placeholder.byteLength 0

/-- Between the starts of two placeholders there is room for the bytes of the first. -/
def Spaced (placeholders : List Placeholder) : Prop :=
  placeholders.Pairwise fun earlier later =>
    earlier.offset + Placeholder.byteLength ≤ later.offset

theorem offset_le_of_mem_placeholdersFrom {offset : Nat} {pieces : List Piece}
    {placeholder : Placeholder} (member : placeholder ∈ placeholdersFrom offset pieces) :
    offset ≤ placeholder.offset := by
  induction pieces generalizing offset with
  | nil => cases member
  | cons piece pieces induction =>
      cases piece with
      | byte high low => exact Nat.le_of_succ_le (induction member)
      | placeholder text =>
          rcases List.mem_cons.mp member with here | there
          · exact here ▸ Nat.le_refl offset
          · exact Nat.le_trans (Nat.le_add_right _ _) (induction there)

theorem spaced_placeholdersFrom (offset : Nat) (pieces : List Piece) :
    Spaced (placeholdersFrom offset pieces) := by
  induction pieces generalizing offset with
  | nil => exact .nil
  | cons piece pieces induction =>
      cases piece with
      | byte high low => exact induction (offset + 1)
      | placeholder text =>
          apply List.pairwise_cons.mpr ⟨?_, induction (offset + Placeholder.byteLength)⟩
          intro later member
          exact offset_le_of_mem_placeholdersFrom member

theorem isPlaced_placeholdersFrom {pieces : List Piece}
    (wellFormed : ∀ piece ∈ pieces, piece.IsWellFormed)
    (ascii : (textOf pieces).all Ascii.isAscii = true) (before : Bytes) :
    ∀ placeholder ∈ placeholdersFrom before.length pieces,
      IsPlaced (before ++ bytesOf pieces) placeholder := by
  induction pieces generalizing before with
  | nil => nofun
  | cons piece pieces induction =>
      rcases List.forall_mem_cons.mp wellFormed with ⟨first, others⟩
      rw [textOf_cons, List.all_append, Bool.and_eq_true] at ascii
      have later := induction others ascii.2 (before ++ piece.bytes)
      rw [List.append_assoc, List.length_append] at later
      cases piece with
      | byte high low => exact later
      | placeholder text =>
          rw [Piece.bytes, List.length_replicate] at later
          apply List.forall_mem_cons.mpr ⟨?_, later⟩
          rw [Piece.text] at ascii
          have slice : (before ++ bytesOf (.placeholder text :: pieces)).slice
              (Placeholder.span ⟨before.length, String.ofList text⟩) =
                List.replicate Placeholder.byteLength 0 := by
            rw [Bytes.slice, Placeholder.span, List.drop_left, bytesOf_cons, Piece.bytes]
            exact List.take_left' List.length_replicate
          refine ⟨?_, ?_, ?_, ?_, slice⟩
          · simpa using first.1
          · simpa using first.2
          · simpa using ascii.1
          · simp [Span.Within, Span.stop, Placeholder.span]

/-! ## Slices in range -/

/-- The bytes from one index up to another, if the code has them. -/
def checkedSlice? (code : Bytes) (first last : Nat) : Option Bytes :=
  if first ≤ last ∧ last ≤ code.length then
    some (code.slice ⟨first, last - first⟩) else none

/-- Shows code as `renderFrom` does, but from slices that may be out of range. -/
def checkedRenderFrom? (code : Bytes) (index : Nat) :
    List Placeholder → Option (List Char)
  | [] => (checkedSlice? code index code.length).map Hex.encode
  | placeholder :: placeholders => do
    let segment ← checkedSlice? code index placeholder.offset
    let rest ←
      checkedRenderFrom? code (placeholder.offset + Placeholder.byteLength) placeholders
    return Hex.encode segment ++ placeholder.text.toList ++ rest

def checkedRender? (compiled : CompiledCode) : Option String :=
  (checkedRenderFrom? compiled.code 0 compiled.placeholders).map fun digits =>
    String.ofList ('0' :: 'x' :: digits)

/-- Placeholders that are placed in the code, with room between them, leave no slice out
of range. -/
theorem checkedRenderFrom?_eq_some {code : Bytes} {placeholders : List Placeholder}
    {index : Nat}
    (placed : ∀ placeholder ∈ placeholders, IsPlaced code placeholder)
    (spaced : Spaced placeholders)
    (after : ∀ placeholder ∈ placeholders, index ≤ placeholder.offset)
    (within : index ≤ code.length) :
    checkedRenderFrom? code index placeholders =
      some (renderFrom code index placeholders) := by
  induction placeholders generalizing index with
  | nil =>
      have rest : code.slice ⟨index, code.length - index⟩ = code.drop index :=
        List.take_of_length_le (Nat.le_of_eq List.length_drop)
      rw [checkedRenderFrom?, checkedSlice?, if_pos ⟨within, Nat.le_refl _⟩, rest]
      rfl
  | cons placeholder placeholders induction =>
      rcases List.forall_mem_cons.mp placed with ⟨first, others⟩
      rcases List.pairwise_cons.mp spaced with ⟨room, spaced⟩
      have inside : placeholder.offset + Placeholder.byteLength ≤ code.length :=
        first.within
      have start : index ≤ placeholder.offset ∧ placeholder.offset ≤ code.length :=
        ⟨after placeholder List.mem_cons_self, Nat.le_trans (Nat.le_add_right _ _) inside⟩
      rw [checkedRenderFrom?, checkedSlice?, if_pos start,
        induction others spaced room inside]
      rfl

theorem checkedRender?_eq_some {compiled : CompiledCode}
    (placed : ∀ placeholder ∈ compiled.placeholders, IsPlaced compiled.code placeholder)
    (spaced : Spaced compiled.placeholders) :
    checkedRender? compiled = some compiled.render := by
  rw [checkedRender?, checkedRenderFrom?_eq_some placed spaced (fun _ _ => Nat.zero_le _)
    (Nat.zero_le _)]
  rfl

/-! ## Round trips -/

/-- The ways to compiled code. -/
inductive IsObtained : CompiledCode → Prop
  | parsed {text : String} {compiled : CompiledCode} (read : parse text = .ok compiled) :
      IsObtained compiled
  | bytes (code : Bytes) : IsObtained (ofBytes code)

/-- Text that is read is shown in the same pieces, with lower case digits; code that is
shown is read as the same code; and code is shown from slices in range, since its
placeholders are placed in it. -/
theorem render_round_trip :
    (∀ text compiled, parse text = .ok compiled →
      ∃ pieces, (∀ piece ∈ pieces, piece.IsWellFormed) ∧
        Hex.withoutMark text.toList = textOf pieces ∧
        compiled.render.toList = '0' :: 'x' :: textOf (pieces.map Piece.lowered)) ∧
    (∀ compiled, IsObtained compiled → parse compiled.render = .ok compiled) ∧
    (∀ compiled, IsObtained compiled →
      (∀ placeholder ∈ compiled.placeholders, IsPlaced compiled.code placeholder) ∧
        Spaced compiled.placeholders ∧
        checkedRender? compiled = some compiled.render) := by
  refine ⟨?_, ?_, ?_⟩
  · intro text compiled read
    rcases parse_eq_ok_iff.mp read with ⟨_, pieces, wellFormed, same, rfl⟩
    exact ⟨pieces, wellFormed, same, render_ofPieces wellFormed⟩
  · intro compiled obtained
    cases obtained with
    | parsed read =>
        rcases parse_eq_ok_iff.mp read with ⟨ascii, pieces, wellFormed, same, rfl⟩
        rw [same] at ascii
        exact parse_render_ofPieces wellFormed ascii
    | bytes code => exact parse_render_ofBytes code
  · intro compiled obtained
    have placed : (∀ placeholder ∈ compiled.placeholders,
        IsPlaced compiled.code placeholder) ∧
        Spaced compiled.placeholders := by
      cases obtained with
      | parsed read =>
          rcases parse_eq_ok_iff.mp read with ⟨ascii, pieces, wellFormed, same, rfl⟩
          rw [same] at ascii
          exact ⟨isPlaced_placeholdersFrom wellFormed ascii [],
            spaced_placeholdersFrom 0 pieces⟩
      | bytes code => exact ⟨nofun, .nil⟩
    exact ⟨placed.1, placed.2, checkedRender?_eq_some placed.1 placed.2⟩

end CompiledCode

end ContractCode
