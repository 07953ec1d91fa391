import ContractCode.Cbor.Skip
import ContractCode.Text.Ascii
import ContractCode.Version.Text

/-!
The metadata that the Solidity compiler appends to code: a map of definite length from
texts to values of any type. Under `solc` it has the compiler version, as three bytes or
as the text of a version, at most once. The map is read twice. `size?` reads it with the
version and tells where it ends, and `mapKeys?` lists its keys; metadata has no keys but
the ones that the compiler writes.
-/

namespace ContractCode.SolidityAuxdata

def solcKey : Bytes := Ascii.bytes "solc"

/-- The keys of the hashes of the source metadata. -/
def contentHashKeys : List Bytes := ["ipfs", "bzzr0", "bzzr1"].map Ascii.bytes

def knownKeys : List Bytes :=
  ["ipfs", "bzzr0", "bzzr1", "solc", "experimental"].map Ascii.bytes

/-- Three bytes, or the text of a version, which is written in ASCII. -/
def compilerVersion? (input : Bytes) : Option Bytes :=
  match Cbor.string? Cbor.byteStringType input with
  | some (digits, rest) => if digits.length = 3 then some rest else none
  | none =>
    match Cbor.string? Cbor.textType input with
    | some (text, rest) =>
      (Version.ofCharacters? (Ascii.characters text)).map fun _ => rest
    | none => none

def value? (key : Bytes) (input : Bytes) : Option Bytes :=
  if key = solcKey then compilerVersion? input else Cbor.skip? input

/-- Reads so many entries; `versionSeen` tells that the compiler version came before
them. -/
def entries? : (count : Nat) → (versionSeen : Bool) → Bytes → Option Bytes
  | 0, _, input => some input
  | count + 1, versionSeen, input => do
    let (key, input) ← Cbor.string? Cbor.textType input
    if versionSeen && key = solcKey then none
    else
      let input ← value? key input
      entries? count (versionSeen || key = solcKey) input

def size? (encoded : Bytes) : Option Nat := do
  let (count, rest) ← Cbor.definite? Cbor.mapType encoded
  let rest ← entries? count false rest
  return encoded.length - rest.length

def keys? : (count : Nat) → Bytes → Option (List Bytes)
  | 0, _ => some []
  | count + 1, input => do
    let (key, input) ← Cbor.string? Cbor.textType input
    let input ← Cbor.skip? input
    let keys ← keys? count input
    return key :: keys

def mapKeys? (encoded : Bytes) : Option (List Bytes) := do
  let (count, rest) ← Cbor.definite? Cbor.mapType encoded
  keys? count rest

def metadataSize? (encoded : Bytes) : Option Nat := do
  let size ← size? encoded
  let keys ← mapKeys? (encoded.take size)
  if keys.all fun key => knownKeys.contains key then some size else none

end ContractCode.SolidityAuxdata
