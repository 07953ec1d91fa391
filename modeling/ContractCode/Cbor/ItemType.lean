import ContractCode.Cbor.Head
import ContractCode.Bytes.Hex

/-!
The type of a CBOR item as its first byte shows it. A number is named for the smallest
word that holds every number of its form; the longer forms of a negative number need a
look at the next byte.
-/

namespace ContractCode.Cbor

inductive ItemType where
  | u8 | u16 | u32 | u64
  | i8 | i16 | i32 | i64 | int
  | bytes | indefiniteBytes
  | text | indefiniteText
  | array | indefiniteArray
  | map | indefiniteMap
  | tag | simple | bool | null | undefined
  | f16 | f32 | f64
  | breakMark
  | reserved (head : UInt8)
deriving Repr, DecidableEq

namespace ItemType

def ofSized (head : UInt8) (definite indefinite : ItemType) : ItemType :=
  if infoOf head < 28 then definite
  else if infoOf head = indefiniteInfo then indefinite
  else .reserved head

def ofNumber (head : UInt8) (one two four eight : ItemType) : ItemType :=
  if infoOf head ≤ 24 then one
  else if infoOf head = 25 then two
  else if infoOf head = 26 then four
  else if infoOf head = 27 then eight
  else .reserved head

def ofSimple (head : UInt8) : ItemType :=
  match infoOf head with
  | 20 => .bool
  | 21 => .bool
  | 22 => .null
  | 23 => .undefined
  | 25 => .f16
  | 26 => .f32
  | 27 => .f64
  | 28 => .reserved head
  | 29 => .reserved head
  | 30 => .reserved head
  | 31 => .breakMark
  | _ => .simple

/-- The type of the first item; none if the input ends before it is known. A negative
number in a longer form is one size larger if its first digit has the upper bit set. -/
def of? : Bytes → Option ItemType
  | [] => none
  | head :: rest =>
    if majorOf head = unsignedType then some (ofNumber head .u8 .u16 .u32 .u64)
    else if majorOf head = negativeType then
      if infoOf head < 24 ∨ 28 ≤ infoOf head then some (ofNumber head .i8 .i16 .i32 .i64)
      else
        rest.head?.map fun next =>
          if next < 0x80 then ofNumber head .i8 .i16 .i32 .i64
          else ofNumber head .i16 .i32 .i64 .int
    else if majorOf head = byteStringType then some (ofSized head .bytes .indefiniteBytes)
    else if majorOf head = textType then some (ofSized head .text .indefiniteText)
    else if majorOf head = arrayType then some (ofSized head .array .indefiniteArray)
    else if majorOf head = mapType then some (ofSized head .map .indefiniteMap)
    else if majorOf head = tagType then
      some (if infoOf head < 28 then .tag else .reserved head)
    else some (ofSimple head)

def name : ItemType → String
  | .u8 => "u8"
  | .u16 => "u16"
  | .u32 => "u32"
  | .u64 => "u64"
  | .i8 => "i8"
  | .i16 => "i16"
  | .i32 => "i32"
  | .i64 => "i64"
  | .int => "int"
  | .bytes => "bytes"
  | .indefiniteBytes => "indefinite bytes"
  | .text => "string"
  | .indefiniteText => "indefinite string"
  | .array => "array"
  | .indefiniteArray => "indefinite array"
  | .map => "map"
  | .indefiniteMap => "indefinite map"
  | .tag => "tag"
  | .simple => "simple"
  | .bool => "bool"
  | .null => "null"
  | .undefined => "undefined"
  | .f16 => "f16"
  | .f32 => "f32"
  | .f64 => "f64"
  | .breakMark => "break"
  | .reserved head => Hex.render [head]

def isUnsigned : ItemType → Bool
  | .u8 | .u16 | .u32 | .u64 => true
  | _ => false

end ItemType

end ContractCode.Cbor
