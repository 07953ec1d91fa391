import ContractCode.Bytes.BigEndian
import ContractCode.Abi.Type

/-!
Values of contract arguments and their encoding. A sequence is encoded as the heads of
its elements and then their tails. The head of an element of static size is the element
itself; the head of any other one is the offset of its tail from the start of the
sequence. Elements of an array that take no words leave no trace in it, so they are left
out.
-/

namespace ContractCode.Abi

def wordSize : Nat := 32

inductive Value where
  /-- A value that takes one word, as this word. -/
  | word (bytes : Bytes)
  /-- A text or a byte string of any length. -/
  | packed (bytes : Bytes)
  /-- An array whose length is part of the value. Elements without words are left out. -/
  | array (length : Nat) (elements : List Value)
  /-- A tuple, or an array whose length is part of the type. -/
  | sequence (elements : List Value)
deriving Repr, Inhabited

namespace Value

mutual

def isDynamic : Value → Bool
  | .word _ => false
  | .packed _ => true
  | .array .. => true
  | .sequence elements => anyDynamic elements

def anyDynamic : List Value → Bool
  | [] => false
  | value :: values => isDynamic value || anyDynamic values

end

mutual

def headSize : Value → Nat
  | .word bytes => bytes.length
  | .packed _ => wordSize
  | .array .. => wordSize
  | .sequence elements => if anyDynamic elements then wordSize else headsSize elements

def headsSize : List Value → Nat
  | [] => 0
  | value :: values => headSize value + headsSize values

end

def number (value : Nat) : Bytes := BigEndian.encode wordSize value

/-- Zeros up to a whole number of words. -/
def padding (length : Nat) : Bytes :=
  List.replicate ((wordSize - length % wordSize) % wordSize) 0

mutual

def encode : Value → Bytes
  | .word bytes => bytes
  | .packed bytes => number bytes.length ++ bytes ++ padding bytes.length
  | .array length elements =>
    let parts := encodeParts (headsSize elements) elements
    number length ++ parts.1 ++ parts.2
  | .sequence elements =>
    let parts := encodeParts (headsSize elements) elements
    parts.1 ++ parts.2

/-- The heads and the tails of a sequence in which the next tail starts at `offset`. -/
def encodeParts : (offset : Nat) → List Value → Bytes × Bytes
  | _, [] => ([], [])
  | offset, value :: values =>
    let encoded := encode value
    if isDynamic value then
      let parts := encodeParts (offset + encoded.length) values
      (number offset ++ parts.1, encoded ++ parts.2)
    else
      let parts := encodeParts offset values
      (encoded ++ parts.1, parts.2)

end

def encodeArguments (values : List Value) : Bytes := encode (.sequence values)

end Value

end ContractCode.Abi
