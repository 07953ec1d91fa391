import ContractCode.PopulatedCode
import ContractCode.MatchError
import ContractCode.Keccak
import ContractCode.Text.Utf8

/-!
Libraries: code that is called at an address that is known only when the contract is
deployed. The compiler marks the place of the address with a placeholder that belongs to
the library's full name.
-/

namespace ContractCode.Library

def fullName (file library : String) : String := file ++ ":" ++ library

/-! ## Placeholders

The newer form has the first digits of a digest of the full name, the older form the
full name itself, cut or filled up to the length of a placeholder. -/

def hashDigits : Nat := 34

def hashPlaceholder (name : String) : String :=
  let digits := (Hex.encode (Keccak.digest (Utf8.bytes name))).take hashDigits
  String.ofList (['_', '_', '$'] ++ digits ++ ['$', '_', '_'])

/-- Characters of a placeholder after the two in front. -/
def nameLength : Nat := Placeholder.textLength - 2

def namePlaceholder (name : String) : String :=
  let kept := name.toList.take nameLength
  String.ofList (['_', '_'] ++ kept ++ List.replicate (nameLength - kept.length) '_')

def isPlaceholderOf (placeholder name : String) : Bool :=
  placeholder == hashPlaceholder name || placeholder == namePlaceholder name

theorem isPlaceholderOf_namePlaceholder (name : String) :
    isPlaceholderOf (namePlaceholder name) name = true := by
  simp [isPlaceholderOf]

/-! ## Linking -/

structure Target where
  name : String
  reference : Reference
deriving Repr, DecidableEq

/-- Every reference with the name of its library, in the order of files, libraries and
lists. -/
def targets (references : LinkReferences) : List Target :=
  references.entries.flatMap fun file =>
    file.2.entries.flatMap fun library =>
      library.2.map fun reference => ⟨fullName file.1 library.1, reference⟩

inductive Decision where
  | keep
  | link
  | refuse (placeholder : String)
deriving Repr, DecidableEq

/-- A placeholder at the start has to belong to the library. Without one the bytes are
the address already, or they are zero and the address goes there. -/
def decisionFor (placeholders : List Placeholder) (target : Target)
    (current address : Bytes) : Decision :=
  match CompiledCode.placeholderAt? placeholders target.reference.span.start with
  | some placeholder =>
    if isPlaceholderOf placeholder.text target.name then .link
    else .refuse placeholder.text
  | none =>
    if current = address then .keep
    else if current.allZero then .link
    else .refuse (String.ofList (Hex.encode current))

/-- Puts one address into the code. An address that is missing on chain is passed over. -/
def resolveTarget (placeholders : List Placeholder) (onChain : Bytes)
    (populated : PopulatedCode)
    (target : Target) : Except MatchError PopulatedCode := do
  let span := target.reference.span
  span.checkedWithin .library target.name populated.code.length
  match onChain.slice? span with
  | none => return populated
  | some address =>
    match decisionFor placeholders target (populated.code.slice span) address with
    | .keep => return populated
    | .link =>
      return populated.overwrite span.start address
        |>.log (.library span.start target.name)
        |>.record (·.addLibrary target.name address)
    | .refuse placeholder =>
      throw (.invalidLibraryPlaceholder target.name span.start placeholder)

def resolve (placeholders : List Placeholder) (onChain : Bytes)
    (references : LinkReferences)
    (populated : PopulatedCode) : Except MatchError PopulatedCode :=
  (targets references).foldlM (resolveTarget placeholders onChain) populated

end ContractCode.Library
