import ContractCode.PopulatedCode
import ContractCode.MatchError
import ContractCode.Auxdata.Chunk

/-!
Immutables: values that a contract gets when it is deployed. Solidity reserves room for
them inside the code, which is filled in place. Vyper keeps them behind the code, so a
reference that starts where the code ends makes it longer.
-/

namespace ContractCode.Immutable

structure Target where
  id : String
  reference : Reference
deriving Repr, DecidableEq

/-- Every reference with its id, in the order of the ids and of the lists under them. -/
def targets (references : ImmutableReferences) : List Target :=
  references.entries.flatMap fun entry =>
    entry.2.map fun reference => ⟨entry.1, reference⟩

/-- Every reference from the lowest place to the highest; equal places keep their
order. -/
def orderedTargets (references : ImmutableReferences) : List Target :=
  (targets references).mergeSort fun left right =>
    left.reference.start ≤ right.reference.start

/-- The value goes behind the code. -/
def appends (style : Auxdata.Style) (code : Bytes) (span : Span) : Bool :=
  style != .solidity && span.start == code.length

/-- Puts one value into the code. A value that is missing on chain is passed over, and
so is one that the code has already. -/
def resolveTarget (style : Auxdata.Style) (onChain : Bytes) (populated : PopulatedCode)
    (target : Target) : Except MatchError PopulatedCode :=
  let span := target.reference.span
  match onChain.slice? span with
  | none => .ok populated
  | some value =>
    if appends style populated.code span then
      .ok <| populated.append value
        |>.log (.insertImmutable span.start target.id)
        |>.record (·.addImmutable target.id value)
    else do
      span.checkedWithin .immutable target.id populated.code.length
      if populated.code.slice span = value then return populated
      else
        return populated.overwrite span.start value
          |>.log (.replaceImmutable span.start target.id)
          |>.record (·.addImmutable target.id value)

def resolve (style : Auxdata.Style) (onChain : Bytes) (references : ImmutableReferences)
    (populated : PopulatedCode) : Except MatchError PopulatedCode :=
  (orderedTargets references).foldlM (resolveTarget style onChain) populated

/-! ## Vyper

The metadata at the end of Vyper creation code tells the length of the runtime code and
of the immutables behind it. -/

def word? (number : Nat) : Option UInt32 :=
  if number < UInt32.size then some (UInt32.ofNat number) else none

/-- The id that all immutables of a Vyper contract are referred to by. -/
def vyperId : String := "0"

/-- The references of a layout: one to all immutables, or none if there are no
immutables. -/
def referencesOfLayout? (layout : CodeLayout) : Option ImmutableReferences :=
  if layout.immutablesLength = 0 then some .empty
  else do
    let start ← word? layout.runtimeCodeLength
    let length ← word? layout.immutablesLength
    return Dictionary.empty.insert vyperId [⟨start, length⟩]

def vyperReferences? (creationCode : Bytes) : Option ImmutableReferences := do
  let chunk ← (Auxdata.split .vyper creationCode).chunk
  match VyperAuxdata.decode (Auxdata.metadataOfChunk .vyper chunk) with
  | .ok (auxdata, _) => referencesOfLayout? (← auxdata.layout)
  | .error _ => none

end ContractCode.Immutable
