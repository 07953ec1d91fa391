import ContractCode.Cbor.ItemType
import ContractCode.Text.Ascii
import ContractCode.Version

/-!
The metadata that the Vyper compiler appends to code. It names the compiler version, and
since some version also how the code is laid out and a hash of it:

* a map with the version alone, `{"vyper": [major, minor, patch]}`;
* an array of the runtime code length, the list of data section lengths, the length of
  the immutables and that map;
* the same array with a hash of thirty-two bytes in front.

Before each item its type is looked at, so a wrong item is reported as such and not as a
broken one.
-/

namespace ContractCode

structure CodeLayout where
  runtimeCodeLength : Nat
  dataSectionLengths : List Nat
  immutablesLength : Nat
deriving Repr, DecidableEq

structure VyperAuxdata where
  integrityHash : Option Bytes
  layout : Option CodeLayout
  version : Version
deriving Repr, DecidableEq

namespace VyperAuxdata

/-- The length of the immutables; there are none without a layout. -/
def immutablesLength (auxdata : VyperAuxdata) : Nat :=
  match auxdata.layout with
  | some layout => layout.immutablesLength
  | none => 0

/-! ## Refusals -/

/-- The places of the metadata that a refusal can name. -/
inductive Field where
  | auxdata | integrityHash | runtimeCodeLength | dataSectionLengths | dataSectionLength
  | immutablesLength | compiler | compilerKey | compilerVersion
  | majorVersion | minorVersion | patchVersion
deriving Repr, DecidableEq

namespace Field

def name : Field → String
  | .auxdata => "auxdata"
  | .integrityHash => "integrity hash"
  | .runtimeCodeLength => "runtime code length"
  | .dataSectionLengths => "data section lengths"
  | .dataSectionLength => "data section length"
  | .immutablesLength => "immutables length"
  | .compiler => "compiler"
  | .compilerKey => "compiler key"
  | .compilerVersion => "compiler version"
  | .majorVersion => "major version"
  | .minorVersion => "minor version"
  | .patchVersion => "patch version"

def expectedType : Field → String
  | .auxdata => "array or map"
  | .integrityHash => "bytes"
  | .dataSectionLengths | .compilerVersion => "array"
  | .compiler => "map"
  | .compilerKey => "string"
  | _ => "unsigned integer"

def expectedLength : Field → String
  | .auxdata => "4 or 5"
  | .integrityHash => "32"
  | .compiler => "1"
  | .compilerVersion => "3"
  | _ => "any number of"

end Field

inductive DecodeError where
  | endOfInput
  /-- The content of a text item is no text; so many bytes were left at the head of the
  item. -/
  | invalidText (remaining : Nat)
  | unexpectedType (field : Field) (found : Cbor.ItemType)
  | unexpectedLength (field : Field) (found : Nat)
  | indefiniteLength (field : Field)
  | unknownCompiler (key : Bytes)
deriving Repr, DecidableEq

def compilerKey : Bytes := Ascii.bytes "vyper"

def DecodeError.message (inputLength : Nat) : DecodeError → String
  | .endOfInput => "end of input bytes"
  | .invalidText remaining => s!"invalid utf-8 at position {inputLength - remaining}"
  | .unexpectedType field found =>
    s!"{field.name}: expected {field.expectedType}, found {found.name}"
  | .unexpectedLength field found =>
    s!"{field.name}: expected {field.expectedLength} elements, found {found}"
  | .indefiniteLength field => s!"{field.name}: indefinite length items are not supported"
  | .unknownCompiler key =>
    "compiler key must be \"vyper\", found \"" ++ Utf8.text key ++ "\""

/-! ## Reading

Every reader returns what it has read with the bytes after it. -/

/-- A reading that fails only where the input ends. -/
def orEnd : Option α → Except DecodeError α
  | some value => .ok value
  | none => .error .endOfInput

/-- Looks at the type of the next item without reading it. -/
def expectType (field : Field) (expected : Cbor.ItemType) (input : Bytes) :
    Except DecodeError Unit := do
  let found ← orEnd (Cbor.ItemType.of? input)
  if found = expected then return () else throw (.unexpectedType field found)

def definiteLength (field : Field) : Option Nat → Except DecodeError Nat
  | some length => .ok length
  | none => .error (.indefiniteLength field)

def expectLength (field : Field) (expected found : Nat) : Except DecodeError Unit :=
  if found = expected then .ok () else .error (.unexpectedLength field found)

def expectCompilerKey (key : Bytes) : Except DecodeError Unit :=
  if key = compilerKey then .ok () else .error (.unknownCompiler key)

def readUnsigned (field : Field) (input : Bytes) : Except DecodeError (Nat × Bytes) := do
  let found ← orEnd (Cbor.ItemType.of? input)
  if found.isUnsigned then orEnd (Cbor.definite? Cbor.unsignedType input)
  else throw (.unexpectedType field found)

def readUnsignedList (field : Field) :
    (count : Nat) → Bytes → Except DecodeError (List Nat × Bytes)
  | 0, input => .ok ([], input)
  | count + 1, input => do
    let (first, input) ← readUnsigned field input
    let (others, input) ← readUnsignedList field count input
    return (first :: others, input)

def readArrayHead (field : Field) (input : Bytes) : Except DecodeError (Nat × Bytes) := do
  let (length, input) ← orEnd (Cbor.container? Cbor.arrayType input)
  let length ← definiteLength field length
  return (length, input)

def readIntegrityHash (input : Bytes) : Except DecodeError (Bytes × Bytes) := do
  expectType .integrityHash .bytes input
  let (hash, input) ← orEnd (Cbor.string? Cbor.byteStringType input)
  expectLength .integrityHash 32 hash.length
  return (hash, input)

def readText (field : Field) (input : Bytes) : Except DecodeError (Bytes × Bytes) := do
  expectType field .text input
  let (length, rest) ← orEnd (Cbor.definite? Cbor.textType input)
  let (content, rest) ← orEnd (Cbor.take? length rest)
  if Utf8.isValid content then return (content, rest)
  else throw (.invalidText input.length)

def readCompilerVersion (input : Bytes) : Except DecodeError (Version × Bytes) := do
  expectType .compiler .map input
  let (entries, input) ← orEnd (Cbor.container? Cbor.mapType input)
  let entries ← definiteLength .compiler entries
  expectLength .compiler 1 entries
  let (key, input) ← readText .compilerKey input
  expectCompilerKey key
  expectType .compilerVersion .array input
  let (components, input) ← readArrayHead .compilerVersion input
  expectLength .compilerVersion 3 components
  let (major, input) ← readUnsigned .majorVersion input
  let (minor, input) ← readUnsigned .minorVersion input
  let (patch, input) ← readUnsigned .patchVersion input
  return (.release major minor patch, input)

/-- Reads the optional hash in front of an array of the given length. -/
def readOptionalHash (length : Nat) (input : Bytes) :
    Except DecodeError (Option Bytes × Bytes) :=
  if length = 4 then .ok (none, input)
  else if length = 5 then do
    let (hash, input) ← readIntegrityHash input
    return (some hash, input)
  else .error (.unexpectedLength .auxdata length)

def readLayout (input : Bytes) : Except DecodeError (CodeLayout × Bytes) := do
  let (runtimeCodeLength, input) ← readUnsigned .runtimeCodeLength input
  expectType .dataSectionLengths .array input
  let (sections, input) ← readArrayHead .dataSectionLengths input
  let (dataSectionLengths, input) ← readUnsignedList .dataSectionLength sections input
  let (immutablesLength, input) ← readUnsigned .immutablesLength input
  return (⟨runtimeCodeLength, dataSectionLengths, immutablesLength⟩, input)

def readSized (input : Bytes) : Except DecodeError (VyperAuxdata × Bytes) := do
  let (length, input) ← readArrayHead .auxdata input
  let (integrityHash, input) ← readOptionalHash length input
  let (layout, input) ← readLayout input
  let (version, input) ← readCompilerVersion input
  return (⟨integrityHash, some layout, version⟩, input)

def read (input : Bytes) : Except DecodeError (VyperAuxdata × Bytes) := do
  let found ← orEnd (Cbor.ItemType.of? input)
  match found with
  | .map =>
    let (version, input) ← readCompilerVersion input
    return (⟨none, none, version⟩, input)
  | .array => readSized input
  | found => throw (.unexpectedType .auxdata found)

/-- The metadata that the bytes start with, and how many of them it takes. -/
def decode (encoded : Bytes) : Except DecodeError (VyperAuxdata × Nat) := do
  let (auxdata, rest) ← read encoded
  return (auxdata, encoded.length - rest.length)

end VyperAuxdata

end ContractCode
