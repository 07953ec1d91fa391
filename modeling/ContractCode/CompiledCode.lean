import ContractCode.Bytes.Hex
import ContractCode.Text.Ascii
import ContractCode.Text.CharacterLiteral

/-!
Code as a compiler prints it. A library that is not linked yet leaves a placeholder of
forty characters in the hexadecimal text, which is no hexadecimal itself. In the code
its twenty bytes are zero, and the placeholder is kept with the offset of these bytes.
-/

namespace ContractCode

structure Placeholder where
  offset : Nat
  text : String
deriving Repr, DecidableEq

namespace Placeholder

def textLength : Nat := 40

def byteLength : Nat := 20

end Placeholder

structure CompiledCode where
  code : Bytes
  /-- The placeholders in the order of their offsets. -/
  placeholders : List Placeholder
deriving Repr, DecidableEq

namespace CompiledCode

def ofBytes (code : Bytes) : CompiledCode := ⟨code, []⟩

def placeholderAt? (placeholders : List Placeholder) (offset : Nat) :
    Option Placeholder :=
  placeholders.find? fun placeholder => placeholder.offset = offset

/-! ## Segments

The text is first cut at its placeholders. They are looked for at every second
character, and each one takes up forty. -/

inductive Segments where
  /-- Digits up to the end of the text. -/
  | last (digits : List Char)
  /-- Digits up to the start of a placeholder that is cut off, and the offset of its
  bytes. -/
  | truncated (digits : List Char) (offset : Nat)
  /-- Digits up to a placeholder, and what follows it. -/
  | linked (digits : List Char) (placeholder : List Char) (following : Segments)
deriving Repr, DecidableEq

namespace Segments

def addPair (high low : Char) : Segments → Segments
  | .last digits => .last (high :: low :: digits)
  | .truncated digits offset => .truncated (high :: low :: digits) offset
  | .linked digits placeholder following =>
    .linked (high :: low :: digits) placeholder following

/-- Cuts a text whose first character belongs to the byte at `offset`. -/
def ofText (offset : Nat) (text : List Char) : Segments :=
  match text with
  | [] => .last []
  | [character] => .last [character]
  | high :: low :: rest =>
    if high = '_' ∧ low = '_' then
      if (high :: low :: rest).length < Placeholder.textLength then .truncated [] offset
      else
        .linked [] ((high :: low :: rest).take Placeholder.textLength)
          (ofText (offset + Placeholder.byteLength)
            (rest.drop (Placeholder.textLength - 2)))
    else (ofText (offset + 1) rest).addPair high low
termination_by text.length
decreasing_by
  · simp only [List.length_drop, List.length_cons]
    omega
  · simp only [List.length_cons]
    omega

end Segments

/-! ## Reading -/

inductive ParseError where
  | notAscii
  | oddLength (characters : Nat)
  | truncatedPlaceholder (offset : Nat)
  /-- The position counts from the end of the placeholder before the character. -/
  | invalidDigit (character : Char) (position : Nat)
deriving Repr, DecidableEq

def ParseError.reason : ParseError → String
  | .notAscii => "non-ascii characters"
  | .oddLength characters => s!"odd number of hex characters: {characters}"
  | .truncatedPlaceholder offset => s!"truncated library placeholder at offset {offset}"
  | .invalidDigit character position =>
    s!"Invalid character {CharacterLiteral.render character} at position {position}"

def decodeDigits (digits : List Char) : Except ParseError Bytes :=
  match Hex.decode digits with
  | .ok bytes => .ok bytes
  | .error (.invalidDigit character position) => .error (.invalidDigit character position)
  | .error .oddLength => .error (.oddLength digits.length)

def addSegment (offset : Nat) (bytes : Bytes) (placeholder : List Char)
    (following : CompiledCode) :
    CompiledCode where
  code := bytes ++ List.replicate Placeholder.byteLength 0 ++ following.code
  placeholders :=
  ⟨offset + bytes.length, String.ofList placeholder⟩ :: following.placeholders

/-- The code of segments of which the first byte has the given offset. The digits before
a placeholder that is cut off are not looked at. -/
def ofSegments (offset : Nat) : Segments → Except ParseError CompiledCode
  | .last digits => do
    let bytes ← decodeDigits digits
    return .ofBytes bytes
  | .truncated _ placeholderOffset => .error (.truncatedPlaceholder placeholderOffset)
  | .linked digits placeholder following => do
    let bytes ← decodeDigits digits
    let following ← ofSegments (offset + bytes.length + Placeholder.byteLength) following
    return addSegment offset bytes placeholder following

def parse (text : String) : Except ParseError CompiledCode :=
  let characters := Hex.withoutMark text.toList
  if !characters.all Ascii.isAscii then .error .notAscii
  else if characters.length % 2 ≠ 0 then .error (.oddLength characters.length)
  else ofSegments 0 (Segments.ofText 0 characters)

/-! ## Writing -/

def renderFrom (code : Bytes) (offset : Nat) : List Placeholder → List Char
  | [] => Hex.encode (code.drop offset)
  | placeholder :: placeholders =>
    Hex.encode (code.slice ⟨offset, placeholder.offset - offset⟩) ++
      placeholder.text.toList ++
      renderFrom code (placeholder.offset + Placeholder.byteLength) placeholders

def render (compiled : CompiledCode) : String :=
  String.ofList ('0' :: 'x' :: renderFrom compiled.code 0 compiled.placeholders)

end CompiledCode

end ContractCode
