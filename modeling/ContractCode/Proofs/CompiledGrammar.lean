import ContractCode.Proofs.CompiledText

/-! # The grammar of compiled text

Compiled text is taken apart from the left: a placeholder where two marks stand, the two
digits of a byte anywhere else. A piece is told by how it starts, so no text is made of
pieces in two ways. What is read is the text that is used up in this manner.
-/

namespace ContractCode.CompiledCode

variable {text rest : List Char} {piece : Piece} {pieces : List Piece}

/-! ## One piece -/

/-- The piece at the start of the text, and the text behind it. -/
def takePiece? : List Char → Option (Piece × List Char)
  | [] | [_] => none
  | high :: low :: rest =>
    if high = '_' ∧ low = '_' then
      let text := high :: low :: rest
      if text.length < Placeholder.textLength then none
      else some (.placeholder (text.take Placeholder.textLength),
        text.drop Placeholder.textLength)
    else if (Hex.digitValue? high).isSome ∧ (Hex.digitValue? low).isSome then
      some (.byte high low, rest)
    else none

theorem takePiece?_text_append (wellFormed : piece.IsWellFormed) (rest : List Char) :
    takePiece? (piece.text ++ rest) = some (piece, rest) := by
  cases piece with
  | byte high low =>
      have unmarked : ¬ (high = '_' ∧ low = '_') := by
        rintro ⟨rfl, rfl⟩
        exact absurd wellFormed.1 (by decide)
      have digits : (Hex.digitValue? high).isSome ∧
          (Hex.digitValue? low).isSome := wellFormed
      change takePiece? (high :: low :: rest) = _
      rw [takePiece?, if_neg unmarked, if_pos digits]
  | placeholder block =>
      rcases wellFormed with ⟨length, others, rfl⟩
      have long : ¬ (['_', '_'] ++ others ++ rest).length < Placeholder.textLength := by
        rw [List.length_append, length]
        omega
      have block : (['_', '_'] ++ others ++ rest).take Placeholder.textLength =
          ['_', '_'] ++ others :=
        List.take_left' length
      have behind : (['_', '_'] ++ others ++ rest).drop Placeholder.textLength = rest :=
        List.drop_left' length
      change takePiece? ('_' :: '_' :: (others ++ rest)) = _
      rw [takePiece?, if_pos ⟨rfl, rfl⟩]
      refine (if_neg long).trans (congrArg some ?_)
      exact Prod.ext (congrArg Piece.placeholder block) behind

theorem takePiece?_eq_some_iff :
    takePiece? text = some (piece, rest) ↔ piece.IsWellFormed ∧
    text = piece.text ++ rest := by
  constructor
  · intro taken
    rw [takePiece?.eq_def] at taken
    split at taken
    · cases taken
    · cases taken
    · rename_i high low rest
      split at taken
      · rename_i marks
        dsimp only at taken
        split at taken
        · cases taken
        · rename_i long
          cases taken
          rcases marks with ⟨rfl, rfl⟩
          refine ⟨⟨List.length_take_of_le (Nat.not_lt.mp long), ?_⟩,
            (List.take_append_drop _ _).symm⟩
          exact ⟨rest.take (Placeholder.textLength - 2), rfl⟩
      · split at taken
        · rename_i digits
          cases taken
          exact ⟨digits, rfl⟩
        · cases taken
  · rintro ⟨wellFormed, rfl⟩
    exact takePiece?_text_append wellFormed rest

theorem length_lt_of_takePiece? (taken : takePiece? text = some (piece, rest)) :
    rest.length < text.length := by
  rcases takePiece?_eq_some_iff.mp taken with ⟨wellFormed, rfl⟩
  rw [List.length_append]
  cases piece with
  | byte high low =>
      simp only [Piece.text, List.length_cons, List.length_nil]
      omega
  | placeholder block =>
      simp only [Piece.text, wellFormed.1, Placeholder.textLength]
      omega

/-! ## All pieces -/

/-- Takes piece after piece until the text starts with none; the text that is left comes
second. -/
def scan (text : List Char) : List Piece × List Char :=
  match _taken : takePiece? text with
  | none => ([], text)
  | some (piece, rest) => (piece :: (scan rest).1, (scan rest).2)
termination_by text.length
decreasing_by all_goals exact length_lt_of_takePiece? _taken

theorem scan_of_takePiece?_eq_none (none : takePiece? text = none) :
    scan text = ([], text) := by
  rw [scan]
  split
  · rfl
  · rename_i taken
    cases none.symm.trans taken

theorem scan_of_takePiece?_eq_some (taken : takePiece? text = some (piece, rest)) :
    scan text = (piece :: (scan rest).1, (scan rest).2) := by
  rw [scan]
  split
  · rename_i none
    cases none.symm.trans taken
  · rename_i again
    cases taken.symm.trans again
    rfl

/-- The text consists of the pieces and a rest that starts with no piece. -/
structure IsTakenApart (text : List Char) (pieces : List Piece)
    (rest : List Char) : Prop where
  wellFormed : ∀ piece ∈ pieces, piece.IsWellFormed
  joined : text = textOf pieces ++ rest
  last : takePiece? rest = none

theorem isTakenApart_scan (text : List Char) :
    IsTakenApart text (scan text).1 (scan text).2 := by
  cases taken : takePiece? text with
  | none =>
      rw [scan_of_takePiece?_eq_none taken]
      exact ⟨nofun, rfl, taken⟩
  | some both =>
      rcases both with ⟨piece, rest⟩
      have shorter := length_lt_of_takePiece? taken
      have others := isTakenApart_scan rest
      rcases takePiece?_eq_some_iff.mp taken with ⟨first, joined⟩
      rw [scan_of_takePiece?_eq_some taken]
      refine ⟨List.forall_mem_cons.mpr ⟨first, others.wellFormed⟩, ?_, others.last⟩
      rw [textOf_cons, List.append_assoc, ← others.joined]
      exact joined
termination_by text.length

/-- A text is taken apart in one way. -/
theorem IsTakenApart.scan (apart : IsTakenApart text pieces rest) :
    scan text = (pieces, rest) := by
  rcases apart with ⟨wellFormed, rfl, last⟩
  induction pieces with
  | nil => exact scan_of_takePiece?_eq_none last
  | cons piece pieces induction =>
      rcases List.forall_mem_cons.mp wellFormed with ⟨first, others⟩
      rw [textOf_cons, List.append_assoc,
        scan_of_takePiece?_eq_some (takePiece?_text_append first _), induction others]

theorem isTakenApart_iff :
    IsTakenApart text pieces rest ↔ scan text = (pieces, rest) := by
  constructor
  · exact IsTakenApart.scan
  · intro same
    have apart := isTakenApart_scan text
    rw [same] at apart
    exact apart

/-- Text that is made of pieces is used up by them. -/
theorem scan_textOf (wellFormed : ∀ piece ∈ pieces, piece.IsWellFormed) :
    scan (textOf pieces) = (pieces, []) :=
  IsTakenApart.scan ⟨wellFormed, (List.append_nil _).symm, rfl⟩

/-! ## Text that starts with no piece -/

inductive IsMalformed : List Char → Prop
  /-- Two marks that do not stand where a piece starts, but one character later. -/
  | shifted {high : Char} {rest : List Char} (unmarked : high ≠ '_') :
      IsMalformed (high :: '_' :: '_' :: rest)
  /-- A placeholder that is cut off. -/
  | truncated {text : List Char} (marks : ['_', '_'] <+: text)
      (short : text.length < Placeholder.textLength) : IsMalformed text
  /-- The mark of hexadecimal text, which stands at most once, in front of all pieces. -/
  | marked {rest : List Char} : IsMalformed ('0' :: 'x' :: rest)
  | high {high : Char} {rest : List Char} (other : Hex.digitValue? high = none)
      (unmarked : ¬ ['_', '_'] <+: high :: rest) : IsMalformed (high :: rest)
  | low {high low : Char} {rest : List Char} (other : Hex.digitValue? low = none)
      (unmarked : ¬ ['_', '_'] <+: high :: low :: rest) :
      IsMalformed (high :: low :: rest)
  | half {character : Char} : IsMalformed [character]

theorem marks_prefix_iff {high low : Char} :
    ['_', '_'] <+: high :: low :: rest ↔ high = '_' ∧ low = '_' := by
  simp only [List.cons_prefix_cons, List.nil_prefix, and_true, eq_comm]

theorem takePiece?_eq_none_of_not_digits {high low : Char}
    (unmarked : ¬ (high = '_' ∧ low = '_'))
    (other : ¬ ((Hex.digitValue? high).isSome ∧ (Hex.digitValue? low).isSome)) :
    takePiece? (high :: low :: rest) = none := by
  rw [takePiece?, if_neg unmarked, if_neg other]

theorem IsMalformed.takePiece? (malformed : IsMalformed text) :
    takePiece? text = none := by
  cases malformed with
  | shifted unmarked =>
      exact takePiece?_eq_none_of_not_digits (fun marks => unmarked marks.1)
        fun digits => absurd digits.2 (by decide)
  | truncated marks short =>
      rcases marks with ⟨rest, rfl⟩
      change CompiledCode.takePiece? ('_' :: '_' :: rest) = none
      rw [CompiledCode.takePiece?, if_pos ⟨rfl, rfl⟩]
      exact if_pos short
  | marked =>
      exact takePiece?_eq_none_of_not_digits (by decide) fun digits =>
        absurd digits.2 (by decide)
  | high other unmarked =>
      rename_i high rest
      cases rest with
      | nil => rfl
      | cons low rest =>
          apply takePiece?_eq_none_of_not_digits
            (fun marks => unmarked (marks_prefix_iff.mpr marks))
          rw [other]
          exact fun digits => absurd digits.1 Bool.false_ne_true
  | low other unmarked =>
      apply takePiece?_eq_none_of_not_digits
        (fun marks => unmarked (marks_prefix_iff.mpr marks))
      rw [other]
      exact fun digits => absurd digits.2 Bool.false_ne_true
  | half => rfl

/-- No other text starts with no piece. -/
theorem isMalformed_iff : IsMalformed text ↔ text ≠ [] ∧ takePiece? text = none := by
  constructor
  · intro malformed
    refine ⟨?_, malformed.takePiece?⟩
    rintro rfl
    rcases malformed with _ | ⟨marks, _⟩
    exact absurd marks (by decide)
  · rintro ⟨filled, none⟩
    rcases text with _ | ⟨high, _ | ⟨low, rest⟩⟩
    · exact absurd rfl filled
    · exact .half
    · by_cases marks : high = '_' ∧ low = '_'
      · apply IsMalformed.truncated (marks_prefix_iff.mpr marks)
        rw [takePiece?, if_pos marks] at none
        dsimp only at none
        split at none
        · rename_i short
          exact short
        · cases none
      · rw [takePiece?, if_neg marks] at none
        split at none
        · cases none
        · rename_i other
          have unmarked : ¬ ['_', '_'] <+: high :: low :: rest :=
            mt marks_prefix_iff.mp marks
          cases isHigh : Hex.digitValue? high with
          | none => exact .high isHigh unmarked
          | some highValue =>
              cases isLow : Hex.digitValue? low with
              | none => exact .low isLow unmarked
              | some lowValue =>
                  exact absurd (by rw [isHigh, isLow]; exact ⟨rfl, rfl⟩) other

/-! ## Where placeholders are -/

/-- The character at the index belongs to a placeholder among the pieces. -/
def IsInPlaceholder (pieces : List Piece) (index : Nat) : Prop :=
  ∃ before block, before ++ [.placeholder block] <+: pieces ∧
    (textOf before).length ≤ index ∧
    index < (textOf before).length + Placeholder.textLength

theorem IsInPlaceholder.cons {index : Nat} (inside : IsInPlaceholder pieces index)
    (piece : Piece) :
    IsInPlaceholder (piece :: pieces) (piece.text.length + index) := by
  rcases inside with ⟨before, block, prefixed, after, within⟩
  refine ⟨piece :: before, block, List.cons_prefix_cons.mpr ⟨rfl, prefixed⟩, ?_, ?_⟩
  · rw [textOf_cons, List.length_append]
    omega
  · rw [textOf_cons, List.length_append]
    omega

/-- Outside of placeholders there are digits. -/
theorem isDigit_or_isInPlaceholder (wellFormed : ∀ piece ∈ pieces, piece.IsWellFormed)
    {index : Nat}
    {character : Char} (found : (textOf pieces)[index]? = some character) :
    (Hex.digitValue? character).isSome ∨ IsInPlaceholder pieces index := by
  induction pieces generalizing index with
  | nil => cases found
  | cons piece pieces induction =>
      rcases List.forall_mem_cons.mp wellFormed with ⟨first, others⟩
      rw [textOf_cons] at found
      rcases Nat.lt_or_ge index piece.text.length with inside | behind
      · rw [List.getElem?_append_left inside] at found
        cases piece with
        | byte high low =>
            left
            rcases List.mem_cons.mp (List.mem_of_getElem? found) with rfl | isLow
            · exact first.1
            · exact List.mem_singleton.mp isLow ▸ first.2
        | placeholder block =>
            refine .inr ⟨[], block, List.cons_prefix_cons.mpr ⟨rfl, List.nil_prefix⟩,
              Nat.zero_le _, ?_⟩
            rw [← first.1]
            exact Nat.lt_of_lt_of_eq inside (Nat.zero_add _).symm
      · rw [List.getElem?_append_right behind] at found
        rcases induction others found with digit | inPlaceholder
        · exact .inl digit
        · have moved := inPlaceholder.cons piece
          rw [Nat.add_sub_cancel' behind] at moved
          exact .inr moved

/-- A placeholder is the first piece, or it comes later. -/
theorem exists_placeholder_cons_iff {Holds : List Piece → List Char → Prop} :
    (∃ before block, before ++ [.placeholder block] <+: piece :: pieces ∧
      Holds before block) ↔
      (∃ block, piece = .placeholder block ∧ Holds [] block) ∨
        ∃ before block, before ++ [.placeholder block] <+: pieces ∧
          Holds (piece :: before) block := by
  constructor
  · rintro ⟨before, block, prefixed, holds⟩
    cases before with
    | nil => exact .inl ⟨block, (List.cons_prefix_cons.mp prefixed).1.symm, holds⟩
    | cons first before =>
        rcases List.cons_prefix_cons.mp prefixed with ⟨rfl, later⟩
        exact .inr ⟨before, block, later, holds⟩
  · rintro (⟨block, rfl, holds⟩ | ⟨before, block, later, holds⟩)
    · exact ⟨[], block, List.cons_prefix_cons.mpr ⟨rfl, List.nil_prefix⟩, holds⟩
    · exact ⟨piece :: before, block, List.cons_prefix_cons.mpr ⟨rfl, later⟩, holds⟩

/-- Each placeholder is kept with the number of bytes in front of it. -/
theorem mem_placeholdersFrom_iff {offset : Nat} {placeholder : Placeholder} :
    placeholder ∈ placeholdersFrom offset pieces ↔
      ∃ before block, before ++ [.placeholder block] <+: pieces ∧
        placeholder = ⟨offset + (bytesOf before).length, String.ofList block⟩ := by
  induction pieces generalizing offset with
  | nil =>
      constructor
      · nofun
      · rintro ⟨before, block, prefixed, _⟩
        exact absurd (List.prefix_nil.mp prefixed) (by simp)
  | cons piece pieces induction =>
      rw [exists_placeholder_cons_iff]
      cases piece with
      | byte high low =>
          have moved : ∀ before, offset + (bytesOf (.byte high low :: before)).length =
              offset + 1 + (bytesOf before).length := by
            intro before
            rw [bytesOf_cons, List.length_append, ← Nat.add_assoc]
            rfl
          simp only [moved, reduceCtorEq, false_and, exists_false, false_or]
          exact induction
      | placeholder block =>
          have moved : ∀ before,
              offset + (bytesOf (.placeholder block :: before)).length =
              offset + Placeholder.byteLength + (bytesOf before).length := by
            intro before
            rw [bytesOf_cons, List.length_append, ← Nat.add_assoc, Piece.bytes,
              List.length_replicate]
          simp only [moved, placeholdersFrom, List.mem_cons, Piece.placeholder.injEq,
            exists_eq_left']
          exact or_congr Iff.rfl induction

/-- Placeholders with room between them are told by their offsets. -/
theorem placeholderAt?_eq_some_iff {placeholders : List Placeholder}
    (spaced : Spaced placeholders)
    {offset : Nat} {placeholder : Placeholder} :
    placeholderAt? placeholders offset = some placeholder ↔
      placeholder ∈ placeholders ∧ placeholder.offset = offset := by
  induction placeholders with
  | nil => simp [placeholderAt?]
  | cons first placeholders induction =>
      rcases List.pairwise_cons.mp spaced with ⟨room, others⟩
      by_cases here : first.offset = offset
      · have found : placeholderAt? (first :: placeholders) offset = some first :=
          List.find?_cons_of_pos (decide_eq_true here)
        rw [found, Option.some.injEq]
        constructor
        · rintro rfl
          exact ⟨List.mem_cons_self, here⟩
        · rintro ⟨member, same⟩
          rcases List.mem_cons.mp member with rfl | later
          · rfl
          · have apart := room placeholder later
            simp only [here, same, Placeholder.byteLength] at apart
            omega
      · have passed : placeholderAt? (first :: placeholders) offset =
            placeholderAt? placeholders offset :=
          List.find?_cons_of_neg fun same => here (of_decide_eq_true same)
        rw [passed, induction others, List.mem_cons]
        constructor
        · rintro ⟨member, same⟩
          exact ⟨.inr member, same⟩
        · rintro ⟨rfl | member, same⟩
          · exact absurd same here
          · exact ⟨member, same⟩

/-- At an offset there is the placeholder that has so many bytes in front of it. -/
theorem placeholderAt?_placeholdersFrom_iff {offset : Nat} {placeholder : Placeholder} :
    placeholderAt? (placeholdersFrom 0 pieces) offset = some placeholder ↔
      ∃ before block, before ++ [.placeholder block] <+: pieces ∧
        (bytesOf before).length = offset ∧
        placeholder = ⟨offset, String.ofList block⟩ := by
  rw [placeholderAt?_eq_some_iff (spaced_placeholdersFrom 0 pieces),
    mem_placeholdersFrom_iff]
  constructor
  · rintro ⟨⟨before, block, prefixed, rfl⟩, rfl⟩
    rw [Nat.zero_add]
    exact ⟨before, block, prefixed, rfl, rfl⟩
  · rintro ⟨before, block, prefixed, rfl, rfl⟩
    rw [← Nat.zero_add (bytesOf before).length]
    exact ⟨⟨before, block, prefixed, rfl⟩, rfl⟩

/-! ## Reading -/

section

variable {text : String} {compiled : CompiledCode}

/-- What is read is told by the pieces that are taken from the left, and nothing is left
behind them. -/
theorem exists_scan_of_parse (parsed : parse text = .ok compiled) :
    ∃ pieces, (∀ piece ∈ pieces, piece.IsWellFormed) ∧
      Hex.withoutMark text.toList = textOf pieces ∧
      scan (Hex.withoutMark text.toList) = (pieces, []) ∧
      compiled = ofPieces 0 pieces := by
  rcases parse_eq_ok_iff.mp parsed with ⟨_, pieces, wellFormed, joined, value⟩
  refine ⟨pieces, wellFormed, joined, ?_, value⟩
  rw [joined]
  exact scan_textOf wellFormed

theorem exists_error_of_isMalformed (wellFormed : ∀ piece ∈ pieces, piece.IsWellFormed)
    (joined : Hex.withoutMark text.toList = textOf pieces ++ rest)
    (malformed : IsMalformed rest) :
    ∃ failure, parse text = .error failure := by
  rcases isMalformed_iff.mp malformed with ⟨left, last⟩
  apply Run.exists_error_iff.mpr
  rintro ⟨compiled, parsed⟩
  rcases exists_scan_of_parse parsed with ⟨_, _, _, usedUp, _⟩
  have scanned := IsTakenApart.scan ⟨wellFormed, joined, last⟩
  rw [usedUp] at scanned
  exact left (congrArg Prod.snd scanned).symm

theorem exists_error_of_digitValue?_eq_none {index : Nat} {character : Char}
    (found : (Hex.withoutMark text.toList)[index]? = some character)
    (other : Hex.digitValue? character = none)
    (outside : ¬ IsInPlaceholder (scan (Hex.withoutMark text.toList)).1 index) :
    ∃ failure, parse text = .error failure := by
  apply Run.exists_error_iff.mpr
  rintro ⟨compiled, parsed⟩
  rcases exists_scan_of_parse parsed with ⟨pieces, wellFormed, joined, usedUp, _⟩
  rw [usedUp] at outside
  rw [joined] at found
  have digit := (isDigit_or_isInPlaceholder wellFormed found).resolve_right outside
  rw [other] at digit
  cases digit

end

/-- Text is read exactly if, behind the mark that it may start with, it is ASCII and
made of pieces. No other pieces make it than the ones taken from the left; the code is
that of the pieces, and at an offset there is the placeholder with so many bytes in
front of it. Text that is malformed behind whole pieces is refused, and so is text with
a character outside of its placeholders that is no digit. -/
theorem parse_accepts_grammar (text : String) :
    ((∃ compiled, parse text = .ok compiled) ↔
      (Hex.withoutMark text.toList).all Ascii.isAscii = true ∧
        ∃ pieces, (∀ piece ∈ pieces, piece.IsWellFormed) ∧
          Hex.withoutMark text.toList = textOf pieces) ∧
    (∀ pieces rest, IsTakenApart (Hex.withoutMark text.toList) pieces rest ↔
      scan (Hex.withoutMark text.toList) = (pieces, rest)) ∧
    (∀ pieces, (∀ piece ∈ pieces, piece.IsWellFormed) →
      Hex.withoutMark text.toList = textOf pieces →
      scan (Hex.withoutMark text.toList) = (pieces, []) ∧
      ∀ compiled, parse text = .ok compiled →
        compiled.code = bytesOf pieces ∧
        ∀ offset placeholder, placeholderAt? compiled.placeholders offset =
          some placeholder ↔
          ∃ before block, before ++ [.placeholder block] <+: pieces ∧
            (bytesOf before).length = offset ∧
            placeholder = ⟨offset, String.ofList block⟩) ∧
    (∀ pieces rest, (∀ piece ∈ pieces, piece.IsWellFormed) →
      Hex.withoutMark text.toList = textOf pieces ++ rest → IsMalformed rest →
      ∃ failure, parse text = .error failure) ∧
    (∀ index character, (Hex.withoutMark text.toList)[index]? = some character →
      Hex.digitValue? character = none →
      ¬ IsInPlaceholder (scan (Hex.withoutMark text.toList)).1 index →
      ∃ failure, parse text = .error failure) := by
  refine ⟨⟨?_, ?_⟩, fun pieces rest => isTakenApart_iff, ?_, ?_, ?_⟩
  · rintro ⟨compiled, parsed⟩
    rcases parse_eq_ok_iff.mp parsed with ⟨ascii, pieces, wellFormed, joined, _⟩
    exact ⟨ascii, pieces, wellFormed, joined⟩
  · rintro ⟨ascii, pieces, wellFormed, joined⟩
    exact ⟨_, parse_eq_ok_iff.mpr ⟨ascii, pieces, wellFormed, joined, rfl⟩⟩
  · intro pieces wellFormed joined
    have scanned := scan_textOf wellFormed
    rw [← joined] at scanned
    refine ⟨scanned, ?_⟩
    intro compiled parsed
    rcases exists_scan_of_parse parsed with ⟨_, _, _, usedUp, rfl⟩
    cases usedUp.symm.trans scanned
    exact ⟨rfl, fun offset placeholder => placeholderAt?_placeholdersFrom_iff⟩
  · intro pieces rest wellFormed joined malformed
    exact exists_error_of_isMalformed wellFormed joined malformed
  · intro index character found other outside
    exact exists_error_of_digitValue?_eq_none found other outside

/-! A placeholder between two bytes, and the same placeholder behind half of a byte. -/

def libraryBlock : String := "__$7d7ab6a5e3a6fa0bb4bc12a9d9ee0a8b79$__"

def libraryPieces : List Piece :=
  [.byte '6' '0', .placeholder libraryBlock.toList, .byte '5' 'b']

theorem parse_accepts_libraryPieces :
    (∃ compiled, parse ("0x60" ++ libraryBlock ++ "5b") = .ok compiled ∧
      compiled.code = 0x60 :: (List.replicate 20 0 ++ [0x5B]) ∧
      placeholderAt? compiled.placeholders 1 = some ⟨1, libraryBlock⟩) ∧
    ∃ failure, parse ("0x600" ++ libraryBlock ++ "b") = .error failure := by
  have wellFormed : ∀ piece ∈ libraryPieces, piece.IsWellFormed := by
    simp only [libraryPieces, List.forall_mem_cons]
    exact ⟨⟨rfl, rfl⟩, ⟨by decide, by decide⟩, ⟨rfl, rfl⟩, nofun⟩
  have same : Hex.withoutMark ("0x60" ++ libraryBlock ++ "5b").toList =
      textOf libraryPieces := by decide
  have accepts := parse_accepts_grammar ("0x60" ++ libraryBlock ++ "5b")
  constructor
  · rcases accepts.1.mpr ⟨by decide, libraryPieces, wellFormed, same⟩ with
      ⟨compiled, parsed⟩
    rcases (accepts.2.2.1 libraryPieces wellFormed same).2 compiled parsed with
      ⟨code, placeholders⟩
    refine ⟨compiled, parsed, code, (placeholders 1 _).mpr ?_⟩
    exact ⟨[.byte '6' '0'], libraryBlock.toList, ⟨[.byte '5' 'b'], rfl⟩, rfl, rfl⟩
  · have refuses := (parse_accepts_grammar ("0x600" ++ libraryBlock ++ "b")).2.2.2.1
    exact refuses [.byte '6' '0'] _ (List.forall_mem_singleton.mpr ⟨rfl, rfl⟩) (by rfl)
      (.shifted (by decide))

end ContractCode.CompiledCode
