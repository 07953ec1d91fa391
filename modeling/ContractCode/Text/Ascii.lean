import ContractCode.Bytes

/-!
Texts of ASCII characters and their bytes, which have the same numbers.
-/

namespace ContractCode.Ascii

def isAscii (character : Char) : Bool := character.toNat < 128

def bytes (text : String) : Bytes :=
  text.toList.map fun character => UInt8.ofNat character.toNat

/-- The characters with the numbers of the bytes; a byte that is no ASCII character
gives a character that is none either. -/
def characters (bytes : Bytes) : List Char := bytes.map fun byte => Char.ofNat byte.toNat

end ContractCode.Ascii
