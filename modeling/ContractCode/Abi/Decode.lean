import ContractCode.Text.Utf8
import ContractCode.Abi.Value
import ContractCode.Abi.Parameter

/-!
Reading arguments. Offsets count from the start of the sequence that holds them, so
every sequence is read in its own contents. A word is brought into the form that its
type gives it, except for numbers and byte strings of fixed size, whose unused bytes are
kept. Whether the arguments are encoded canonically is seen by encoding what has been
read.
-/

namespace ContractCode.Abi

/-- Sequences can be nested so deep. -/
def nestingLimit : Nat := 16

structure Cursor where
  contents : Bytes
  offset : Nat
  /-- How many sequences are around. -/
  depth : Nat
deriving Repr, DecidableEq

namespace Cursor

def start (arguments : Bytes) : Cursor := ⟨arguments, 0, 0⟩

def remainingWords (cursor : Cursor) : Nat :=
  (cursor.contents.length - cursor.offset) / wordSize

def word? (cursor : Cursor) : Option (Bytes × Cursor) :=
  (cursor.contents.slice? ⟨cursor.offset, wordSize⟩).map fun word =>
    (word, { cursor with offset := cursor.offset + wordSize })

/-- Reads an offset or a length, which fits 64 bits. -/
def number? (cursor : Cursor) : Option (Nat × Cursor) := do
  let (word, cursor) ← cursor.word?
  let number := BigEndian.decode word
  if number < UInt64.size then some (number, cursor) else none

/-- Goes into the sequence whose contents start at an offset. -/
def enter? (cursor : Cursor) (offset : Nat) : Option Cursor :=
  if nestingLimit ≤ cursor.depth ∨ cursor.contents.length < offset then none
  else some ⟨cursor.contents.drop offset, 0, cursor.depth + 1⟩

/-- Goes into the sequence that the next word points to, and to the place after that
word. -/
def follow? (cursor : Cursor) : Option (Cursor × Cursor) := do
  let (offset, cursor) ← cursor.number?
  let inner ← cursor.enter? offset
  return (inner, cursor)

/-- Reads a text or byte string, which the next word points to. -/
def packed? (cursor : Cursor) : Option (Bytes × Cursor) := do
  let (inner, cursor) ← cursor.follow?
  let (length, inner) ← inner.number?
  let bytes ← inner.contents.slice? ⟨inner.offset, length⟩
  return (bytes, cursor)

end Cursor

/-! ## Words -/

/-- The low twenty bytes. -/
def addressWord (word : Bytes) : Bytes := List.replicate 12 0 ++ word.drop 12

/-- The high twenty-four bytes. -/
def functionWord (word : Bytes) : Bytes := word.take 24 ++ List.replicate 8 0

/-- True unless every byte is zero. -/
def boolWord (word : Bytes) : Bytes := Value.number (if word.allZero then 0 else 1)

/-! ## Values -/

def decodeMany (decode : Cursor → Option (Value × Cursor)) :
    (count : Nat) → Cursor → Option (List Value × Cursor)
  | 0, cursor => some ([], cursor)
  | count + 1, cursor => do
    let (value, cursor) ← decode cursor
    let (values, cursor) ← decodeMany decode count cursor
    return (value :: values, cursor)

/-- Reads the elements of an array. Elements without words are all the same, so one is
read and none is kept. -/
def decodeElements (minimumWords : Nat) (decode : Cursor → Option (Value × Cursor))
    (count : Nat)
    (cursor : Cursor) : Option (List Value × Cursor) :=
  if minimumWords = 0 ∧ count ≠ 0 then (decode cursor).map fun _ => ([], cursor)
  else decodeMany decode count cursor

/-- Reads a sequence of a fixed number of elements: from where the next word points to
if it is dynamic, else from the place itself, and then goes behind it. -/
def decodeSequence (dynamic : Bool) (decode : Cursor → Option (List Value × Cursor))
    (cursor : Cursor) : Option (Value × Cursor) :=
  if dynamic then do
    let (inner, cursor) ← cursor.follow?
    let (values, _) ← decode inner
    return (.sequence values, cursor)
  else do
    let inner ← cursor.enter? cursor.offset
    let (values, inner) ← decode inner
    return (.sequence values, { cursor with offset := cursor.offset + inner.offset })

/-- Reads an array that says its own length. An array that is longer than its contents
can hold is refused before any element is read. -/
def decodeArray (minimumWords : Nat) (decode : Cursor → Option (Value × Cursor))
    (cursor : Cursor) :
    Option (Value × Cursor) := do
  let (inner, cursor) ← cursor.follow?
  let (length, inner) ← inner.number?
  if length = 0 then some (.array 0 [], cursor)
  else
    let inner ← inner.enter? inner.offset
    if inner.remainingWords < length * minimumWords then none
    else
      let (values, _) ← decodeElements minimumWords decode length inner
      return (.array length values, cursor)

def decodeWord (form : Bytes → Bytes) (cursor : Cursor) : Option (Value × Cursor) :=
  cursor.word?.map fun (word, cursor) => (.word (form word), cursor)

mutual

def decode : AbiType → Cursor → Option (Value × Cursor)
  | .address, cursor => decodeWord addressWord cursor
  | .function, cursor => decodeWord functionWord cursor
  | .bool, cursor => decodeWord boolWord cursor
  | .fixedBytes _, cursor => decodeWord id cursor
  | .uint _, cursor => decodeWord id cursor
  | .int _, cursor => decodeWord id cursor
  | .string, cursor => cursor.packed?.map fun (bytes, cursor) =>
    (.packed (Utf8.repair bytes), cursor)
  | .bytes, cursor => cursor.packed?.map fun (bytes, cursor) => (.packed bytes, cursor)
  | .array element, cursor => decodeArray element.minimumWords (decode element) cursor
  | .fixedArray element length, cursor =>
    decodeSequence element.isDynamic
      (decodeElements element.minimumWords (decode element) length)
      cursor
  | .tuple components, cursor =>
    decodeSequence (AbiType.anyDynamic components) (decodeAll components) cursor

def decodeAll : List AbiType → Cursor → Option (List Value × Cursor)
  | [], cursor => some ([], cursor)
  | type :: types, cursor => do
    let (value, cursor) ← decode type cursor
    let (values, cursor) ← decodeAll types cursor
    return (value :: values, cursor)

end

/-! ## Arguments -/

/-- What stands for every value of a type without words: nothing in it is told apart. No
such value has the length that an array of a fixed length must have. -/
def emptyValue? : AbiType → Option Value
  | .array _ => some (.array 0 [])
  | .tuple _ => some (.sequence [])
  | _ => none

/-- Reads the argument of one type. For a type without words nothing is read, and every
other one is refused before it is read if too few words are left for it. -/
def decodeArgument (type : AbiType) (cursor : Cursor) : Option (Value × Cursor) :=
  if type.isEmpty then (emptyValue? type).map fun value => (value, cursor)
  else if cursor.remainingWords < type.minimumWords then none
  else decode type cursor

def decodeParameters : List Parameter → Cursor → Option (List Value)
  | [], _ => some []
  | parameter :: parameters, cursor => do
    let type ← parameter.resolve?
    let (value, cursor) ← decodeArgument type cursor
    let values ← decodeParameters parameters cursor
    return value :: values

/-- The arguments are what encoding the values read from them gives. -/
def isCanonical (parameters : List Parameter) (arguments : Bytes) : Bool :=
  match decodeParameters parameters (.start arguments) with
  | some values => Value.encodeArguments values == arguments
  | none => false

end ContractCode.Abi
