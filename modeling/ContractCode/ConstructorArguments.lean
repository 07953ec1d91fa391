import ContractCode.Abi.Decode
import ContractCode.Abi.Document
import ContractCode.MatchError
import ContractCode.Transformation

/-!
Constructor arguments: the bytes that follow the compiled creation code on chain. They
are validated when the contract interface declares constructor parameters and the bytes
are a canonical encoding of values for them.
-/

namespace ContractCode.ConstructorArguments

structure Extracted where
  /-- The bytes after the code, if there are any. -/
  arguments : Option Bytes := none
  /-- The insertion of the arguments, if they are validated. -/
  transformations : List Transformation := []
deriving Repr, DecidableEq

def Extracted.isValidated (extracted : Extracted) : Bool :=
  !extracted.transformations.isEmpty

def inputs (abi : Option Json) : Except MatchError (List Abi.Parameter) :=
  match abi with
  | none => .ok []
  | some abi =>
    match Abi.Document.ofJson? abi with
    | some document => .ok document.constructorInputs
    | none => .error .invalidAbi

def areValid (inputs : List Abi.Parameter) (arguments : Bytes) : Bool :=
  !inputs.isEmpty && Abi.isCanonical inputs arguments

def extract (compiled onChain : Bytes) (abi : Option Json) :
    Except MatchError Extracted :=
  match onChain.drop compiled.length with
  | [] => .ok {}
  | arguments => do
    let inputs ← inputs abi
    return {
      arguments := some arguments
      transformations :=
        if areValid inputs arguments then
          [.constructorArguments compiled.length] else [] }

end ContractCode.ConstructorArguments
