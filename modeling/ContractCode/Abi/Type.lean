import ContractCode.Abi.TypeText

/-!
The types of contract arguments, and the types that texts stand for. Any name may stand
in an interface document; only the names of elementary types stand for a type.
-/

namespace ContractCode.Abi

inductive AbiType where
  | address
  | function
  | bool
  | string
  | bytes
  | fixedBytes (size : Nat)
  | uint (bits : Nat)
  | int (bits : Nat)
  | array (element : AbiType)
  | fixedArray (element : AbiType) (length : Nat)
  | tuple (components : List AbiType)
deriving Repr

namespace AbiType

/-! ## Names -/

def sizeAfter? (start name : List Char) : Option Nat :=
  let digits := name.drop start.length
  if start.isPrefixOf name && !digits.isEmpty && digits.all Character.isDigit then
    some (Character.numberOfDigits digits)
  else none

/-- A number of bits that integers come in: whole bytes up to a word. -/
def isIntegerSize (bits : Nat) : Bool := bits != 0 && bits ≤ 256 && bits % 8 == 0

def isByteSize (size : Nat) : Bool := size != 0 && size ≤ 32

/-- The type of one of the names with a number. -/
def ofSizedName? (name : List Char) : Option AbiType :=
  match sizeAfter? "bytes".toList name with
  | some size => if isByteSize size then some (.fixedBytes size) else none
  | none =>
    match sizeAfter? "uint".toList name with
    | some bits => if isIntegerSize bits then some (.uint bits) else none
    | none =>
      match sizeAfter? "int".toList name with
      | some bits => if isIntegerSize bits then some (.int bits) else none
      | none => none

def ofName? (name : String) : Option AbiType :=
  match name with
  | "address" => some .address
  | "function" => some .function
  | "bool" => some .bool
  | "string" => some .string
  | "bytes" => some .bytes
  | "uint" => some (.uint 256)
  | "int" => some (.int 256)
  | name => ofSizedName? name.toList

def arrayOf (element : AbiType) : Option Nat → AbiType
  | some length => .fixedArray element length
  | none => .array element

/-! ## Texts -/

mutual

def ofText? : TypeText → Option AbiType
  | .name name => ofName? name
  | .tuple members => (ofTexts? members).map .tuple
  | .array element length => (ofText? element).map fun element => arrayOf element length

def ofTexts? : List TypeText → Option (List AbiType)
  | [] => some []
  | text :: texts => do
    let type ← ofText? text
    let types ← ofTexts? texts
    return type :: types

end

/-- The type with the array sizes of a text around another type than the one the text
names. -/
def withArraysOf (type : AbiType) : TypeText → AbiType
  | .array element length => arrayOf (withArraysOf type element) length
  | _ => type

/-! ## Sizes -/

mutual

/-- Values of the type hold no words: empty tuples, and whatever is made of them alone. -/
def isEmpty : AbiType → Bool
  | .array element => isEmpty element
  | .fixedArray element length => length == 0 || isEmpty element
  | .tuple components => areEmpty components
  | _ => false

def areEmpty : List AbiType → Bool
  | [] => true
  | type :: types => isEmpty type && areEmpty types

end

mutual

/-- The encoding of a value has a part whose size the type does not tell. -/
def isDynamic : AbiType → Bool
  | .string | .bytes | .array _ => true
  | .fixedArray element _ => isDynamic element
  | .tuple components => anyDynamic components
  | _ => false

def anyDynamic : List AbiType → Bool
  | [] => false
  | type :: types => isDynamic type || anyDynamic types

end

mutual

def minimumWords : AbiType → Nat
  | .fixedArray element length => length * minimumWords element
  | .tuple components => totalMinimumWords components
  | _ => 1

def totalMinimumWords : List AbiType → Nat
  | [] => 0
  | type :: types => minimumWords type + totalMinimumWords types

end

end AbiType

end ContractCode.Abi
