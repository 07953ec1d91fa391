import ContractCode.Bytes.BigEndian
import ContractCode.Text.Utf8

/-!
The heads of CBOR items. A head is one byte whose upper three bits name the major type
and whose lower five bits hold the argument, or tell how many bytes after the head hold
it. Longer forms than needed are accepted. Every reader returns the bytes after what it
has read; the lemmas say that these are fewer.
-/

namespace ContractCode.Cbor

/-! The major types, by number. -/

def unsignedType : Nat := 0
def negativeType : Nat := 1
def byteStringType : Nat := 2
def textType : Nat := 3
def arrayType : Nat := 4
def mapType : Nat := 5
def tagType : Nat := 6
def simpleType : Nat := 7

/-- The largest argument, and the largest count of items. -/
def largest : Nat := UInt64.size - 1

/-- The byte that ends an item of indefinite length. -/
def breakByte : UInt8 := 0xFF

def majorOf (head : UInt8) : Nat := head.toNat / 32

def infoOf (head : UInt8) : Nat := head.toNat % 32

def indefiniteInfo : Nat := 31

/-- How many bytes after the head hold its argument, unless the lower bits are
reserved. -/
def argumentWidth? (info : Nat) : Option Nat :=
  if info < 24 then some 0
  else if info = 24 then some 1
  else if info = 25 then some 2
  else if info = 26 then some 4
  else if info = 27 then some 8
  else none

def take? (count : Nat) (input : Bytes) : Option (Bytes × Bytes) :=
  if count ≤ input.length then some (input.take count, input.drop count) else none

def argument? (info : Nat) (input : Bytes) : Option (Nat × Bytes) :=
  match argumentWidth? info with
  | none => none
  | some 0 => some (info, input)
  | some width => (take? width input).map fun (digits, rest) =>
    (BigEndian.decode digits, rest)

def definite? (major : Nat) : Bytes → Option (Nat × Bytes)
  | [] => none
  | head :: rest => if majorOf head = major then argument? (infoOf head) rest else none

def container? (major : Nat) : Bytes → Option (Option Nat × Bytes)
  | [] => none
  | head :: rest =>
    if majorOf head ≠ major then none
    else if infoOf head = indefiniteInfo then some (none, rest)
    else (argument? (infoOf head) rest).map fun (count, rest) => (some count, rest)

/-- The content of a string of definite length; a text has to be valid. -/
def string? (major : Nat) (input : Bytes) : Option (Bytes × Bytes) := do
  let (length, rest) ← definite? major input
  let (content, rest) ← take? length rest
  if major = textType && !Utf8.isValid content then none else some (content, rest)

/-! ## What is left is shorter -/

theorem length_take? {count : Nat} {input content rest : Bytes}
    (found : take? count input = some (content, rest)) :
    input = content ++ rest ∧ content.length = count := by
  simp only [take?] at found
  split at found
  · rename_i fits
    simp only [Option.some.injEq, Prod.mk.injEq] at found
    rcases found with ⟨rfl, rfl⟩
    exact ⟨(List.take_append_drop count input).symm, by simp [fits]⟩
  · simp at found

theorem length_argument? {info value : Nat} {input rest : Bytes}
    (found : argument? info input = some (value, rest)) : rest.length ≤ input.length := by
  simp only [argument?] at found
  split at found
  · simp at found
  · simp only [Option.some.injEq, Prod.mk.injEq] at found
    simp [found.2]
  · simp only [Option.map_eq_some_iff] at found
    rcases found with ⟨⟨digits, left⟩, taken, equal⟩
    simp only [Prod.mk.injEq] at equal
    rcases length_take? taken with ⟨joined, _⟩
    simp [joined, equal.2]

theorem length_definite? {major value : Nat} {input rest : Bytes}
    (found : definite? major input = some (value, rest)) :
    rest.length < input.length := by
  match input with
  | [] => simp [definite?] at found
  | head :: tail =>
    simp only [definite?] at found
    split at found
    · have := length_argument? found
      simp only [List.length_cons]
      omega
    · simp at found

theorem length_container? {major : Nat} {count : Option Nat} {input rest : Bytes}
    (found : container? major input = some (count, rest)) :
    rest.length < input.length := by
  match input with
  | [] => simp [container?] at found
  | head :: tail =>
    simp only [container?] at found
    split at found
    · simp at found
    · split at found
      · simp only [Option.some.injEq, Prod.mk.injEq] at found
        simp [found.2]
      · simp only [Option.map_eq_some_iff] at found
        rcases found with ⟨⟨value, left⟩, read, equal⟩
        simp only [Prod.mk.injEq] at equal
        have := length_argument? read
        simp only [List.length_cons, ← equal.2]
        omega

theorem length_string? {major : Nat} {input content rest : Bytes}
    (found : string? major input = some (content, rest)) :
    rest.length < input.length := by
  simp only [string?, Option.bind_eq_bind, Option.bind_eq_some_iff] at found
  rcases found with ⟨⟨length, afterHead⟩, head, ⟨taken, left⟩, body, valid⟩
  have shorter := length_definite? head
  rcases length_take? body with ⟨joined, _⟩
  simp only at joined valid
  split at valid
  · simp at valid
  · simp only [Option.some.injEq, Prod.mk.injEq] at valid
    have pieces := congrArg List.length joined
    simp only [List.length_append, valid.2] at pieces
    omega

end ContractCode.Cbor
