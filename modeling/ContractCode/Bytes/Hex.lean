import ContractCode.Bytes

/-!
Bytes as hexadecimal text: two digits a byte, written in lower case and read in either
case. Main statement: `decode_encode`.
-/

namespace ContractCode.Hex

def digit (value : Nat) : Char :=
  if value < 10 then Char.ofNat (48 + value) else Char.ofNat (87 + value)

def digitValue? (character : Char) : Option Nat :=
  let code := character.toNat
  if 48 ≤ code ∧ code ≤ 57 then some (code - 48)
  else if 97 ≤ code ∧ code ≤ 102 then some (code - 87)
  else if 65 ≤ code ∧ code ≤ 70 then some (code - 55)
  else none

theorem digitValue?_digit {value : Nat} (small : value < 16) :
    digitValue? (digit value) = some value := by
  have all : ∀ value : Fin 16, digitValue? (digit value.val) = some value.val := by decide
  exact all ⟨value, small⟩

theorem digitValue?_lt {character : Char} {value : Nat}
    (found : digitValue? character = some value) : value < 16 := by
  simp only [digitValue?] at found
  split at found
  · simp only [Option.some.injEq] at found
    omega
  · split at found
    · simp only [Option.some.injEq] at found
      omega
    · split at found
      · simp only [Option.some.injEq] at found
        omega
      · simp at found

def encode (bytes : Bytes) : List Char :=
  bytes.flatMap fun byte => [digit (byte.toNat / 16), digit (byte.toNat % 16)]

@[simp] theorem encode_nil : encode [] = [] := rfl

@[simp] theorem encode_cons (byte : UInt8) (bytes : Bytes) :
    encode (byte :: bytes) = digit (byte.toNat / 16) :: digit (byte.toNat % 16) ::
      encode bytes := rfl

@[simp] theorem encode_append (left right : Bytes) :
    encode (left ++ right) = encode left ++ encode right := by
  simp [encode]

@[simp] theorem length_encode (bytes : Bytes) :
    (encode bytes).length = 2 * bytes.length := by
  induction bytes with
  | nil => rfl
  | cons byte bytes induction =>
    simp only [encode_cons, List.length_cons, induction]
    omega

inductive Error where
  | oddLength
  | invalidDigit (character : Char) (position : Nat)
deriving Repr, DecidableEq

def digitAt (position : Nat) (character : Char) : Except Error Nat :=
  match digitValue? character with
  | some value => .ok value
  | none => .error (.invalidDigit character position)

/-- Reads digits of which the first stands at `position`; the leftmost mistake is
reported. -/
def decodeFrom (position : Nat) : List Char → Except Error Bytes
  | [] => .ok []
  | [_] => .error .oddLength
  | high :: low :: rest => do
    let high ← digitAt position high
    let low ← digitAt (position + 1) low
    let bytes ← decodeFrom (position + 2) rest
    return UInt8.ofNat (high * 16 + low) :: bytes

def decode (text : List Char) : Except Error Bytes := decodeFrom 0 text

theorem decodeFrom_encode (position : Nat) (bytes : Bytes) :
    decodeFrom position (encode bytes) = .ok bytes := by
  induction bytes generalizing position with
  | nil => rfl
  | cons byte bytes induction =>
    have small : byte.toNat < 256 := byte.toNat_lt
    have high : digitValue? (digit (byte.toNat / 16)) = some (byte.toNat / 16) :=
      digitValue?_digit (by omega)
    have low : digitValue? (digit (byte.toNat % 16)) = some (byte.toNat % 16) :=
      digitValue?_digit (by omega)
    have joined : byte.toNat / 16 * 16 + byte.toNat % 16 = byte.toNat := by omega
    simp [decodeFrom, digitAt, high, low, induction, joined, bind, Except.bind, pure,
      Except.pure]

theorem decode_encode (bytes : Bytes) : decode (encode bytes) = .ok bytes :=
  decodeFrom_encode 0 bytes

/-! ## Texts with a mark

Bytes are shown with the mark `0x` in front, and read with or without it; a second mark
is no digit. -/

/-- The text without the mark it may start with. -/
def withoutMark (text : List Char) : List Char :=
  match text with
  | '0' :: 'x' :: digits => digits
  | digits => digits

def render (bytes : Bytes) : String := String.ofList ('0' :: 'x' :: encode bytes)

def parse? (text : String) : Option Bytes := (decode (withoutMark text.toList)).toOption

theorem parse?_render (bytes : Bytes) : parse? (render bytes) = some bytes := by
  simp [parse?, render, withoutMark, decode_encode, Except.toOption]

end ContractCode.Hex
