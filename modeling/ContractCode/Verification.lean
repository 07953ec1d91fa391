import ContractCode.Matching

/-!
Verifying both codes of a contract. A code that cannot be compared counts as one that
does not match.
-/

namespace ContractCode

namespace Verification

/-- The codes of a contract that are known from the chain; at least one of them is. -/
inductive OnChainCode where
  | runtime (code : Bytes)
  | creation (code : Bytes)
  | complete (runtime creation : Bytes)
deriving Repr, DecidableEq

namespace OnChainCode

def ofOptions? : (runtime creation : Option Bytes) → Option OnChainCode
  | some runtimeCode, some creationCode => some (.complete runtimeCode creationCode)
  | some runtimeCode, none => some (.runtime runtimeCode)
  | none, some creationCode => some (.creation creationCode)
  | none, none => none

def runtime? : OnChainCode → Option Bytes
  | .runtime code => some code
  | .creation _ => none
  | .complete code _ => some code

def creation? : OnChainCode → Option Bytes
  | .runtime _ => none
  | .creation code => some code
  | .complete _ code => some code

end OnChainCode

structure Compiled where
  runtime : CompiledCode
  creation : CompiledCode
  compilation : CompilationArtifacts := {}
  runtimeArtifacts : CodeArtifacts := {}
  creationArtifacts : CodeArtifacts := {}

inductive Outcome where
  | failure
  | runtimeMatch (runtime : MatchResult)
  | creationMatch (creation : MatchResult)
  | completeMatch (runtime creation : MatchResult)
deriving Repr, DecidableEq

namespace Outcome

def ofMatches : (runtime creation : Option MatchResult) → Outcome
  | none, none => .failure
  | some runtime, none => .runtimeMatch runtime
  | none, some creation => .creationMatch creation
  | some runtime, some creation => .completeMatch runtime creation

end Outcome

def matched? : Except MatchError MatchResult → Option MatchResult
  | .ok result => if result.isMatch then some result else none
  | .error _ => none

def verify (style : Auxdata.Style) (onChain : OnChainCode)
    (compiled : Compiled) : Outcome :=
  .ofMatches
    (onChain.runtime?.bind fun code =>
      matched?
        (Matching.matchRuntime style code compiled.runtime compiled.runtimeArtifacts))
    (onChain.creation?.bind fun code =>
      matched?
        (Matching.matchCreation style code compiled.creation compiled.creationArtifacts
        compiled.compilation))

end Verification

end ContractCode
