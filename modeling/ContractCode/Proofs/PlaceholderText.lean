import ContractCode.Proofs.CompiledText
import ContractCode.Proofs.LinkIntegrity

/-! # The text at library references

The text of compiled code has two characters for each byte, and forty for the bytes of a
placeholder. The linking does not see this text. It sees zero bytes where a placeholder
was, and the placeholder only from a reference that starts where it does.
-/

namespace ContractCode

/-! ## Digits -/

namespace Hex

theorem isDigit_of_decode :
    ∀ {text : List Char} {bytes : Bytes}, decode text = .ok bytes →
    ∀ character ∈ text, (digitValue? character).isSome
  | [], _, _ => nofun
  | [_], _, decoded => nomatch decoded
  | high :: low :: rest, _, decoded => by
      rcases decode_cons_cons_eq_ok_iff.mp decoded with
        ⟨isHigh, isLow, others, decodedRest, _⟩
      exact List.forall_mem_cons.mpr
        ⟨isHigh, List.forall_mem_cons.mpr ⟨isLow, isDigit_of_decode decodedRest⟩⟩

theorem eq_zero_of_digitValue? {character : Char}
    (found : digitValue? character = some 0) :
    character = '0' := by
  have all : ∀ code : Fin 128, digitValue? (Char.ofNat code) = some 0 →
      Char.ofNat code = '0' := by
    decide
  have zero := all ⟨character.toNat, toNat_lt_of_digitValue? found⟩
  simp only [Char.ofNat_toNat] at zero
  exact zero found

theorem digits_of_byteOf_eq_zero {high low : Char} (isHigh : (digitValue? high).isSome)
    (isLow : (digitValue? low).isSome) (zero : byteOf high low = 0) :
    high = '0' ∧ low = '0' := by
  rcases Option.isSome_iff_exists.mp isHigh with ⟨highValue, highFound⟩
  rcases Option.isSome_iff_exists.mp isLow with ⟨lowValue, lowFound⟩
  have highSmall := digitValue?_lt highFound
  have lowSmall := digitValue?_lt lowFound
  have value := congrArg UInt8.toNat zero
  rw [byteOf, highFound, lowFound, Option.getD_some, Option.getD_some, UInt8.toNat_ofNat',
    Nat.mod_eq_of_lt (by omega)] at value
  change highValue * 16 + lowValue = 0 at value
  have parts : highValue = 0 ∧ lowValue = 0 := by omega
  exact ⟨eq_zero_of_digitValue? (parts.1 ▸ highFound),
    eq_zero_of_digitValue? (parts.2 ▸ lowFound)⟩

theorem eq_zero_of_decode :
    ∀ {text : List Char} {bytes : Bytes}, decode text = .ok bytes →
    bytes.allZero = true → ∀ character ∈ text, character = '0'
  | [], _, _, _ => nofun
  | [_], _, decoded, _ => nomatch decoded
  | high :: low :: rest, _, decoded, zero => by
      rcases decode_cons_cons_eq_ok_iff.mp decoded with
        ⟨isHigh, isLow, others, decodedRest, rfl⟩
      rw [Bytes.allZero, List.all_cons, Bool.and_eq_true] at zero
      rcases digits_of_byteOf_eq_zero isHigh isLow (eq_of_beq zero.1) with
        ⟨highZero, lowZero⟩
      exact List.forall_mem_cons.mpr
        ⟨highZero,
          List.forall_mem_cons.mpr ⟨lowZero, eq_zero_of_decode decodedRest zero.2⟩⟩

end Hex

/-! ## Windows of the text -/

namespace CompiledCode

variable {characters : List Char} {code : Bytes} {span : Span} {pieces : List Piece}
  {placeholder : Placeholder}

/-- The characters that stand for the bytes of the span. -/
def textAt (characters : List Char) (span : Span) : List Char :=
  (characters.drop (2 * span.start)).take (2 * span.length)

/-- The text has two digits for the byte. -/
structure IsWritten (characters : List Char) (code : Bytes) (index : Nat)
    (high low : Char) : Prop where
  first : characters[2 * index]? = some high
  second : characters[2 * index + 1]? = some low
  isHigh : (Hex.digitValue? high).isSome
  isLow : (Hex.digitValue? low).isSome
  byte : code[index]? = some (Hex.byteOf high low)

theorem IsWritten.drop {index : Nat} {high low : Char}
    (written : IsWritten characters code index high low) :
    characters.drop (2 * index) = high :: low :: characters.drop (2 * (index + 1)) ∧
      code.drop index = Hex.byteOf high low :: code.drop (index + 1) := by
  rcases List.getElem?_eq_some_iff.mp written.first with ⟨highBelow, rfl⟩
  rcases List.getElem?_eq_some_iff.mp written.second with ⟨lowBelow, rfl⟩
  rcases List.getElem?_eq_some_iff.mp written.byte with ⟨byteBelow, byte⟩
  rw [← byte]
  refine ⟨?_, List.drop_eq_getElem_cons byteBelow⟩
  rw [List.drop_eq_getElem_cons highBelow, List.drop_eq_getElem_cons lowBelow]
  rfl

theorem decode_textAt
    (written : ∀ index, span.Covers index →
      ∃ high low, IsWritten characters code index high low) :
    Hex.decode (textAt characters span) = .ok (code.slice span) := by
  rcases span with ⟨start, length⟩
  induction length generalizing start with
  | zero => rfl
  | succ length induction =>
      rcases written start ⟨Nat.le_refl start,
        Nat.lt_add_of_pos_right (Nat.succ_pos length)⟩
        with ⟨high, low, here⟩
      have later : ∀ index, Span.Covers ⟨start + 1, length⟩ index →
          ∃ high low, IsWritten characters code index high low := by
        intro index covers
        apply written
        simp only [Span.Covers, Span.stop] at covers ⊢
        omega
      rw [textAt, Bytes.slice, here.drop.1, here.drop.2, Nat.mul_succ]
      exact Hex.decode_cons_cons_eq_ok_iff.mpr
        ⟨here.isHigh, here.isLow, _, induction (start + 1) later, rfl⟩

theorem IsWritten.append {index : Nat} {high low : Char}
    (written : IsWritten characters code index high low) {front : List Char}
    {before : Bytes}
    (size : front.length = 2 * before.length) :
    IsWritten (front ++ characters) (before ++ code) (before.length + index)
      high low := by
  have position : 2 * (before.length + index) = front.length + 2 * index := by omega
  refine ⟨?_, ?_, written.isHigh, written.isLow, ?_⟩
  · rw [position, List.getElem?_append_right (Nat.le_add_right _ _),
      Nat.add_sub_cancel_left]
    exact written.first
  · rw [position, Nat.add_assoc, List.getElem?_append_right (Nat.le_add_right _ _),
      Nat.add_sub_cancel_left]
    exact written.second
  · rw [List.getElem?_append_right (Nat.le_add_right _ _), Nat.add_sub_cancel_left]
    exact written.byte

/-- A byte outside of all placeholders is written with digits. -/
theorem isWritten_textOf (wellFormed : ∀ piece ∈ pieces, piece.IsWellFormed)
    {offset index : Nat}
    (outside : ∀ placeholder ∈ placeholdersFrom offset pieces,
      ¬ placeholder.span.Covers (offset + index))
    (inside : index < (bytesOf pieces).length) :
    ∃ high low, IsWritten (textOf pieces) (bytesOf pieces) index high low := by
  induction pieces generalizing offset index with
  | nil => cases inside
  | cons piece pieces induction =>
      rcases List.forall_mem_cons.mp wellFormed with ⟨first, others⟩
      cases piece with
      | byte high low =>
          cases index with
          | zero => exact ⟨high, low, rfl, rfl, first.1, first.2, rfl⟩
          | succ index =>
              have moved : offset + (index + 1) = offset + 1 + index := by omega
              rw [moved] at outside
              rcases induction others outside (Nat.lt_of_succ_lt_succ inside) with
                ⟨high, low, written⟩
              rw [Nat.add_comm]
              exact ⟨high, low, written.append rfl⟩
      | placeholder text =>
          rcases List.forall_mem_cons.mp outside with ⟨notHere, outside⟩
          have beyond : Placeholder.byteLength ≤ index := by
            apply Nat.not_lt.mp
            intro within
            exact notHere ⟨Nat.le_add_right _ _, Nat.add_lt_add_left within _⟩
          rcases Nat.exists_eq_add_of_le beyond with ⟨index, rfl⟩
          rw [← Nat.add_assoc] at outside
          rw [bytesOf_cons, Piece.bytes, List.length_append, List.length_replicate,
            Nat.add_lt_add_iff_left] at inside
          rcases induction others outside inside with ⟨high, low, written⟩
          exact ⟨high, low, written.append first.1⟩

theorem head?_textAt (filled : 0 < span.length) :
    (textAt characters span).head? = characters[2 * span.start]? := by
  rw [textAt, List.head?_take, if_neg (by omega), List.head?_drop]

theorem mem_textAt {index : Nat} {character : Char} (covers : span.Covers index)
    (here : characters[2 * index]? = some character) :
    character ∈ textAt characters span := by
  simp only [Span.Covers, Span.stop] at covers
  apply List.mem_of_getElem? (i := 2 * (index - span.start))
  have position : 2 * span.start + 2 * (index - span.start) = 2 * index := by omega
  rw [textAt, List.getElem?_take_of_lt (by omega), List.getElem?_drop, position]
  exact here

theorem textAt_append {front : List Char} {size : Nat} (length : front.length = 2 * size)
    (span : Span) : textAt (front ++ characters) ⟨size + span.start, span.length⟩ =
      textAt characters span := by
  rw [textAt, textAt, Nat.mul_add, ← length, ← List.drop_drop, List.drop_left]

/-- The text has a placeholder where the bytes of the placeholder are. -/
theorem textAt_of_mem_placeholdersFrom (wellFormed : ∀ piece ∈ pieces, piece.IsWellFormed)
    {offset : Nat} (member : placeholder ∈ placeholdersFrom offset pieces) :
    textAt (textOf pieces) ⟨placeholder.offset - offset, Placeholder.byteLength⟩ =
      placeholder.text.toList := by
  induction pieces generalizing offset with
  | nil => cases member
  | cons piece pieces induction =>
      rcases List.forall_mem_cons.mp wellFormed with ⟨first, others⟩
      cases piece with
      | byte high low =>
          have start : offset + 1 ≤ placeholder.offset :=
            offset_le_of_mem_placeholdersFrom member
          have moved : placeholder.offset - offset =
              1 + (placeholder.offset - (offset + 1)) := by omega
          rw [← induction others member, moved, textOf_cons]
          exact textAt_append rfl ⟨placeholder.offset - (offset + 1),
            Placeholder.byteLength⟩
      | placeholder text =>
          rcases List.mem_cons.mp member with rfl | later
          · rw [Nat.sub_self, textOf_cons, textAt, String.toList_ofList]
            exact List.take_left' first.1
          · have start := offset_le_of_mem_placeholdersFrom later
            have moved : placeholder.offset - offset = Placeholder.byteLength +
                (placeholder.offset - (offset + Placeholder.byteLength)) := by omega
            rw [← induction others later, moved, textOf_cons]
            exact textAt_append first.1 ⟨_, _⟩

/-! ### Text that is read -/

section

variable {text : String} {compiled : CompiledCode}

theorem length_textAt_of_parse (read : parse text = .ok compiled)
    (inside : span.Within compiled.code.length) :
    (textAt (Hex.withoutMark text.toList) span).length = 2 * span.length := by
  rcases parse_eq_ok_iff.mp read with ⟨_, pieces, wellFormed, same, rfl⟩
  simp only [Span.Within, Span.stop, ofPieces] at inside
  rw [same, textAt, List.length_take, List.length_drop, length_textOf wellFormed]
  omega

theorem textAt_placeholder_of_parse (read : parse text = .ok compiled)
    (member : placeholder ∈ compiled.placeholders) :
    textAt (Hex.withoutMark text.toList) placeholder.span = placeholder.text.toList := by
  rcases parse_eq_ok_iff.mp read with ⟨_, pieces, wellFormed, same, rfl⟩
  rw [same]
  exact textAt_of_mem_placeholdersFrom wellFormed member

theorem mark_of_parse (read : parse text = .ok compiled)
    (member : placeholder ∈ compiled.placeholders) :
    (Hex.withoutMark text.toList)[2 * placeholder.offset]? = some '_' := by
  have written := textAt_placeholder_of_parse read member
  rcases parse_eq_ok_iff.mp read with ⟨ascii, pieces, wellFormed, same, rfl⟩
  rw [same] at ascii
  rcases (isPlaced_placeholdersFrom wellFormed ascii [] placeholder member).marks with
    ⟨others, marks⟩
  rw [← marks] at written
  have first := congrArg List.head? written
  rw [head?_textAt (Nat.zero_lt_succ 19)] at first
  exact first

/-- A byte of no placeholder is written with digits. -/
theorem isWritten_of_parse (read : parse text = .ok compiled) {index : Nat}
    (inside : index < compiled.code.length)
    (outside : ∀ placeholder ∈ compiled.placeholders, ¬ placeholder.span.Covers index) :
    ∃ high low, IsWritten (Hex.withoutMark text.toList) compiled.code index high low := by
  rcases parse_eq_ok_iff.mp read with ⟨_, pieces, wellFormed, same, rfl⟩
  rw [same]
  rw [← Nat.zero_add index] at outside
  exact isWritten_textOf wellFormed outside inside

theorem decode_textAt_of_parse (read : parse text = .ok compiled)
    (inside : span.Within compiled.code.length)
    (apart : ∀ placeholder ∈ compiled.placeholders, span.Disjoint placeholder.span) :
    Hex.decode (textAt (Hex.withoutMark text.toList) span) =
      .ok (compiled.code.slice span) := by
  apply decode_textAt
  intro index covers
  apply isWritten_of_parse read (Nat.lt_of_lt_of_le covers.2 inside)
  intro placeholder member covered
  exact apart placeholder member index covers covered

end

end CompiledCode

/-! ## Canonical text -/

namespace Library

variable {name : String} {address : Bytes} {characters : List Char}
  {placeholders : List Placeholder}
  {onChain : Bytes} {compiled : CompiledCode} {references : LinkReferences}
  {populated next : PopulatedCode} {target : Target} {text : String}

theorem toList_hashPlaceholder (name : String) :
    ∃ digits, (hashPlaceholder name).toList = '_' :: '_' :: digits := by
  rw [hashPlaceholder, String.toList_ofList]
  exact ⟨_, rfl⟩

theorem toList_namePlaceholder (name : String) :
    ∃ letters, (namePlaceholder name).toList = '_' :: '_' :: letters := by
  rw [namePlaceholder, String.toList_ofList]
  exact ⟨_, rfl⟩

theorem length_hashPlaceholder (name : String) :
    (hashPlaceholder name).toList.length = Placeholder.textLength := by
  have enough : hashDigits ≤ (Hex.encode (Keccak.digest (Utf8.bytes name))).length := by
    rw [Hex.length_encode, Keccak.length_digest]
    decide
  rw [hashPlaceholder, String.toList_ofList, List.length_append, List.length_append,
    List.length_take_of_le enough]
  rfl

theorem length_namePlaceholder (name : String) :
    (namePlaceholder name).toList.length = Placeholder.textLength := by
  have short : (name.toList.take nameLength).length ≤ nameLength :=
    List.length_take_le _ _
  rw [namePlaceholder, String.toList_ofList, List.length_append, List.length_append,
    List.length_replicate, Nat.add_assoc, Nat.add_sub_cancel' short]
  rfl

/-- What the text may have where the address of a library goes. -/
inductive IsCanonical (name : String) (address : Bytes) (characters : List Char) : Prop
  | hash (same : characters = (hashPlaceholder name).toList)
  | name (same : characters = (namePlaceholder name).toList)
  | zeros (zero : ∀ character ∈ characters, character = '0')
  | address (decoded : Hex.decode characters = .ok address)

/-- The text at the reference is canonical for its library and for the address on
chain. -/
def HasCanonicalText (text : String) (onChain : Bytes) (target : Target) : Prop :=
  IsCanonical target.name (onChain.slice target.reference.span)
    (CompiledCode.textAt (Hex.withoutMark text.toList) target.reference.span)

/-- Canonical text that has a mark at all starts with one and has the length of a
placeholder. -/
theorem IsCanonical.of_mem_mark (canonical : IsCanonical name address characters)
    (marked : '_' ∈ characters) :
    characters.head? = some '_' ∧ characters.length = Placeholder.textLength := by
  cases canonical with
  | hash same =>
      rcases toList_hashPlaceholder name with ⟨digits, starts⟩
      refine ⟨?_, same ▸ length_hashPlaceholder name⟩
      rw [same, starts]
      rfl
  | name same =>
      rcases toList_namePlaceholder name with ⟨letters, starts⟩
      refine ⟨?_, same ▸ length_namePlaceholder name⟩
      rw [same, starts]
      rfl
  | zeros zero => exact absurd (zero _ marked) (by decide)
  | address decoded => exact absurd (Hex.isDigit_of_decode decoded _ marked) (by decide)

/-! ## What the linking has read -/

/-- Placeholders and references that share a byte with the reference have the same bytes
as it. -/
structure IsAligned (compiled : CompiledCode) (references : LinkReferences)
    (target : Target) : Prop where
  placeholders : ∀ placeholder ∈ compiled.placeholders,
    target.reference.span.Disjoint placeholder.span ∨
    placeholder.span = target.reference.span
  references : ∀ other ∈ targets references,
    target.reference.span.Disjoint other.reference.span ∨
      other.reference.span = target.reference.span

/-- What a step without a placeholder has found. -/
theorem Step.content (step : Step placeholders onChain populated target next)
    (present : target.reference.span.Within onChain.length)
    (unmarked :
      CompiledCode.placeholderAt? placeholders target.reference.span.start = none) :
    (populated.code.slice target.reference.span).allZero = true ∨
      populated.code.slice target.reference.span =
        onChain.slice target.reference.span := by
  have inOrder :=
    (resolveTarget_eq_ok_iff_isInOrder.mp (resolveTarget_eq_ok_iff.mpr step)).1
  have own := inOrder.content present
  rw [HasOwnContent, unmarked] at own
  exact own

/-- Until the reference has its turn its bytes are those of the compiled code, unless
these were zero. -/
theorem Step.keeps_slice {other : Target} {span : Span} {code : Bytes}
    (step : Step placeholders onChain populated other next)
    (unmarked : CompiledCode.placeholderAt? placeholders span.start = none)
    (alike : span.Disjoint other.reference.span ∨ other.reference.span = span)
    (before : populated.code.slice span = code.slice span ∨
      (code.slice span).allZero = true) :
    next.code.slice span = code.slice span ∨ (code.slice span).allZero = true := by
  rcases before with same | zero
  · cases step with
    | missing inside absent => exact .inl same
    | kept inside present keeps => exact .inl same
    | linked inside present links =>
        rcases alike with apart | rfl
        · left
          rw [← same]
          apply Bytes.slice_congr
          intro index covers
          exact PopulatedCode.getElem?_fill_code_of_not_covers present inside.start_le
            (apart index covers)
        · rcases Step.content (.linked inside present links) present unmarked with
            zero | onChainAlready
          · exact .inr (same ▸ zero)
          · have settled := Settled.of_fill (linking other) present inside.start_le
            exact .inl (settled.same.trans (onChainAlready.symm.trans same))
  · exact .inr zero

/-- Without a placeholder at the start the compiled code has zeros or what is on chain. -/
theorem content_of_resolve
    (resolved : resolve placeholders onChain references populated = .ok next)
    (listed : target ∈ targets references)
    (present : target.reference.span.Within onChain.length)
    (unmarked :
      CompiledCode.placeholderAt? placeholders target.reference.span.start = none)
    (alike : ∀ other ∈ targets references,
      target.reference.span.Disjoint other.reference.span ∨
        other.reference.span = target.reference.span) :
    (populated.code.slice target.reference.span).allZero = true ∨
      populated.code.slice target.reference.span =
        onChain.slice target.reference.span := by
  rcases Run.step_of_mem resolved listed with
    ⟨earlier, later, state, after, split, ran, stepped, _⟩
  have before : state.code.slice target.reference.span =
      populated.code.slice target.reference.span ∨
      (populated.code.slice target.reference.span).allZero = true := by
    apply Run.preserves (fun state =>
      state.code.slice target.reference.span =
        populated.code.slice target.reference.span ∨
        (populated.code.slice target.reference.span).allZero = true) _ ran (.inl rfl)
    intro state other after member before stepped
    have otherListed : other ∈ targets references := by
      rw [split]
      exact List.mem_append_left _ member
    exact (resolveTarget_eq_ok_iff.mp stepped).keeps_slice unmarked
      (alike other otherListed) before
  rcases before with same | zero
  · rw [← same]
    exact (resolveTarget_eq_ok_iff.mp stepped).content present unmarked
  · exact .inl zero

/-- A placeholder at the start of a reference belongs to the library. -/
theorem own_of_resolve {placeholder : Placeholder}
    (resolved : resolve placeholders onChain references populated = .ok next)
    (listed : target ∈ targets references)
    (present : target.reference.span.Within onChain.length)
    (found : CompiledCode.placeholderAt? placeholders target.reference.span.start =
      some placeholder) :
    placeholder.text = hashPlaceholder target.name ∨
      placeholder.text = namePlaceholder target.name := by
  rcases Run.step_of_mem resolved listed with ⟨_, _, state, after, _, _, stepped, _⟩
  have own := (resolveTarget_eq_ok_iff_isInOrder.mp stepped).1.content present
  rw [HasOwnContent, found] at own
  exact own

theorem placeholderAt?_eq_some {placeholder : Placeholder} {start : Nat}
    (found : CompiledCode.placeholderAt? placeholders start = some placeholder) :
    placeholder ∈ placeholders ∧ placeholder.offset = start := by
  rw [CompiledCode.placeholderAt?] at found
  have starts := List.find?_some found
  exact ⟨List.mem_of_find?_eq_some found, of_decide_eq_true starts⟩

/-- At a placeholder the text of the reference is canonical if the reference has the
placeholder's length. -/
theorem hasCanonicalText_iff_of_placeholder {placeholder : Placeholder}
    (read : CompiledCode.parse text = .ok compiled)
    (inside : target.reference.span.Within compiled.code.length)
    (found :
      CompiledCode.placeholderAt? compiled.placeholders target.reference.span.start =
      some placeholder)
    (own : placeholder.text = hashPlaceholder target.name ∨
      placeholder.text = namePlaceholder target.name) :
    HasCanonicalText text onChain target ↔
      target.reference.span.length = 0 ∨
        target.reference.span.length = Placeholder.byteLength := by
  have size := CompiledCode.length_textAt_of_parse read inside
  rcases placeholderAt?_eq_some found with ⟨member, start⟩
  have written := CompiledCode.textAt_placeholder_of_parse read member
  rw [HasCanonicalText]
  generalize target.reference.span = span at *
  rcases span with ⟨_, length⟩
  dsimp only at start size ⊢
  subst start
  constructor
  · intro canonical
    rcases Nat.eq_zero_or_pos length with empty | filled
    · exact .inl empty
    · right
      have first : (CompiledCode.textAt (Hex.withoutMark text.toList)
          ⟨placeholder.offset, length⟩).head? = some '_' := by
        rw [CompiledCode.head?_textAt filled]
        exact CompiledCode.mark_of_parse read member
      have marked := (canonical.of_mem_mark (List.mem_of_head? first)).2
      rw [size] at marked
      exact Nat.eq_of_mul_eq_mul_left Nat.zero_lt_two marked
  · rintro (rfl | rfl)
    · exact .zeros nofun
    · rcases own with own | own
      · exact .hash (written.trans (congrArg String.toList own))
      · exact .name (written.trans (congrArg String.toList own))

/-- Text that goes from digits into a placeholder is not canonical. -/
theorem not_hasCanonicalText_of_covers {placeholder : Placeholder}
    (read : CompiledCode.parse text = .ok compiled)
    (inside : target.reference.span.Within compiled.code.length)
    (member : placeholder ∈ compiled.placeholders)
    (covers : target.reference.span.Covers placeholder.offset)
    (outside : ∀ other ∈ compiled.placeholders,
      ¬ other.span.Covers target.reference.span.start) :
    ¬ HasCanonicalText text onChain target := by
  intro canonical
  have filled : 0 < target.reference.span.length := by
    simp only [Span.Covers, Span.stop] at covers
    omega
  have below : target.reference.span.start < compiled.code.length :=
    Nat.lt_of_lt_of_le (Nat.lt_add_of_pos_right filled) inside
  rcases CompiledCode.isWritten_of_parse read below outside with ⟨high, low, written⟩
  have marked := CompiledCode.mem_textAt covers (CompiledCode.mark_of_parse read member)
  have first := (canonical.of_mem_mark marked).1
  rw [CompiledCode.head?_textAt filled, written.first] at first
  cases first
  exact absurd written.isHigh (by decide)

theorem hasCanonicalText_of_isAligned (read : CompiledCode.parse text = .ok compiled)
    (resolved :
      resolve compiled.placeholders onChain references (.ofCode compiled.code) = .ok next)
    (listed : target ∈ targets references)
    (present : target.reference.span.Within onChain.length)
    (inside : target.reference.span.Within compiled.code.length)
    (aligned : IsAligned compiled references target) :
    HasCanonicalText text onChain target := by
  cases found :
    CompiledCode.placeholderAt? compiled.placeholders target.reference.span.start with
  | some placeholder =>
      have own := own_of_resolve resolved listed present found
      apply (hasCanonicalText_iff_of_placeholder read inside found own).mpr
      rcases placeholderAt?_eq_some found with ⟨member, start⟩
      rcases aligned.placeholders placeholder member with apart | same
      · left
        have separate := Span.disjoint_iff.mp apart
        simp only [Span.stop, Placeholder.span, Placeholder.byteLength] at separate
        omega
      · exact .inr (congrArg Span.length same).symm
  | none =>
      have apart : ∀ placeholder ∈ compiled.placeholders,
          target.reference.span.Disjoint placeholder.span := by
        intro placeholder member
        rcases aligned.placeholders placeholder member with apart | same
        · exact apart
        · have start := List.find?_eq_none.mp found placeholder member
          exact absurd (decide_eq_true (congrArg Span.start same)) start
      have decoded := CompiledCode.decode_textAt_of_parse read inside apart
      rcases content_of_resolve resolved listed present found aligned.references with
        zero | same
      · exact .zeros (Hex.eq_zero_of_decode decoded zero)
      · exact .address (decoded.trans (congrArg Except.ok same))

/-- References that share bytes only with placeholders and references of the same bytes
are linked over canonical text. The linking takes no notice of where a placeholder ends,
or that a reference starts in front of one: at a placeholder the text is canonical only
if the reference has its length, and it is not canonical if it goes from digits into a
placeholder. -/
theorem linked_text_of_resolve (read : CompiledCode.parse text = .ok compiled)
    (resolved : resolve compiled.placeholders onChain references
      (.ofCode compiled.code) = .ok next) :
    ∀ target ∈ targets references, target.reference.span.Within onChain.length →
      (IsAligned compiled references target → HasCanonicalText text onChain target) ∧
      (∀ placeholder, CompiledCode.placeholderAt? compiled.placeholders
            target.reference.span.start = some placeholder →
        (placeholder.text = hashPlaceholder target.name ∨
          placeholder.text = namePlaceholder target.name) ∧
        (HasCanonicalText text onChain target ↔
          target.reference.span.length = 0 ∨
            target.reference.span.length = Placeholder.byteLength)) ∧
      (∀ placeholder ∈ compiled.placeholders,
        target.reference.span.Covers placeholder.offset →
        (∀ other ∈ compiled.placeholders,
          ¬ other.span.Covers target.reference.span.start) →
        ¬ HasCanonicalText text onChain target) := by
  intro target listed present
  have inside := (isLinked_of_resolve resolved listed).inside
  rw [length_code_of_resolve resolved] at inside
  refine ⟨hasCanonicalText_of_isAligned read resolved listed present inside, ?_, ?_⟩
  · intro placeholder found
    have own := own_of_resolve resolved listed present found
    exact ⟨own, hasCanonicalText_iff_of_placeholder read inside found own⟩
  · intro placeholder member covers outside
    exact not_hasCanonicalText_of_covers read inside member covers outside

/-! A placeholder, and a reference that starts one byte behind its start. -/

def markedText : String := "60__a.sol:L_______________________________"

theorem parse_markedText : CompiledCode.parse markedText = .ok markedCode := by
  apply CompiledCode.parse_eq_ok_iff.mpr
  refine ⟨by decide,
    [.byte '6' '0', .placeholder (namePlaceholder "a.sol:L").toList],
    ?_, by decide, by decide⟩
  exact List.forall_mem_cons.mpr ⟨⟨rfl, rfl⟩,
    List.forall_mem_cons.mpr ⟨⟨by decide, by decide⟩, nofun⟩⟩

theorem hasCanonicalText_markedText :
    CompiledCode.parse markedText = .ok markedCode ∧
      resolve markedCode.placeholders markedOnChain markedReferences
        (.ofCode markedCode.code) =
        .ok markedLinked ∧
      HasCanonicalText markedText markedOnChain ⟨"a.sol:L", ⟨1, 20⟩⟩ := by
  have listed : (⟨"a.sol:L", ⟨1, 20⟩⟩ : Target) ∈ targets markedReferences := by
    rw [targets_markedReferences]
    exact List.mem_cons_self
  have linked :=
    linked_text_of_resolve parse_markedText resolve_markedCode _ listed (by decide)
  refine ⟨parse_markedText, resolve_markedCode, linked.1 ⟨?_, ?_⟩⟩
  · exact List.forall_mem_singleton.mpr (.inr rfl)
  · rw [targets_markedReferences]
    exact List.forall_mem_singleton.mpr (.inr rfl)

def shiftedText : String := "__a.sol:L_______________________________00"

def shiftedCode : CompiledCode where
  code := List.replicate 21 0
  placeholders := [⟨0, namePlaceholder "a.sol:L"⟩]

def shiftedOnChain : Bytes := 0 :: List.replicate 20 1

def shiftedLinked : PopulatedCode where
  code := shiftedOnChain
  transformations := [.library 1 "a.sol:L"]
  values := { libraries := Dictionary.empty.insert "a.sol:L" (List.replicate 20 1) }

theorem parse_shiftedText : CompiledCode.parse shiftedText = .ok shiftedCode := by
  apply CompiledCode.parse_eq_ok_iff.mpr
  refine ⟨by decide,
    [.placeholder (namePlaceholder "a.sol:L").toList, .byte '0' '0'],
    ?_, by decide, by decide⟩
  exact List.forall_mem_cons.mpr ⟨⟨by decide, by decide⟩,
    List.forall_mem_cons.mpr ⟨⟨rfl, rfl⟩, nofun⟩⟩

theorem resolve_shiftedCode :
    resolve shiftedCode.placeholders shiftedOnChain markedReferences
      (.ofCode shiftedCode.code) =
      .ok shiftedLinked := by
  decide +kernel

/-- Text that is neither a placeholder nor zeros nor the address is linked. -/
theorem not_canonical_of_resolve :
    ¬ ∀ (text : String) (compiled : CompiledCode) (onChain : Bytes)
      (references : LinkReferences)
        (next : PopulatedCode), CompiledCode.parse text = .ok compiled →
      resolve compiled.placeholders onChain references
        (.ofCode compiled.code) = .ok next →
      ∀ target ∈ targets references, target.reference.span.Within onChain.length →
        HasCanonicalText text onChain target := by
  intro all
  have listed : (⟨"a.sol:L", ⟨1, 20⟩⟩ : Target) ∈ targets markedReferences := by
    rw [targets_markedReferences]
    exact List.mem_cons_self
  have canonical :=
    all _ _ _ _ _ parse_shiftedText resolve_shiftedCode _ listed (by decide)
  have marked : '_' ∈
      CompiledCode.textAt (Hex.withoutMark shiftedText.toList) ⟨1, 20⟩ := by decide
  exact absurd (canonical.of_mem_mark marked).1 (by decide)

end Library

end ContractCode
