import ContractCode.Verification

/-! # Both codes of a contract

A contract is verified by two comparisons that know nothing of each other. What the
outcome has for one of the codes depends on this code alone, and an error in the
comparison of one code takes nothing from what is told of the other.
-/

namespace ContractCode.Verification

variable {style : Auxdata.Style} {onChain : OnChainCode} {compiled : Compiled}
  {result : MatchResult} {error : MatchError}

/-! ## The codes that are known -/

theorem OnChainCode.ofOptions?_eq_some_iff {runtime creation : Option Bytes} :
    OnChainCode.ofOptions? runtime creation = some onChain ↔
      onChain.runtime? = runtime ∧ onChain.creation? = creation := by
  constructor
  · intro given
    cases runtime <;> cases creation <;> cases given <;> exact ⟨rfl, rfl⟩
  · intro known
    rw [← known.1, ← known.2]
    cases onChain <;> rfl

/-- Some code is known, so verifying a contract always compares something. -/
theorem OnChainCode.isSome_runtime?_or_creation? (onChain : OnChainCode) :
    onChain.runtime?.isSome ∨ onChain.creation?.isSome := by
  cases onChain with
  | runtime | complete => exact .inl rfl
  | creation => exact .inr rfl

/-! ## The parts of an outcome -/

namespace Outcome

/-- What the outcome tells of the runtime code. -/
def runtime? : Outcome → Option MatchResult
  | .runtimeMatch runtime | .completeMatch runtime _ => some runtime
  | .failure | .creationMatch _ => none

/-- What the outcome tells of the creation code. -/
def creation? : Outcome → Option MatchResult
  | .creationMatch creation | .completeMatch _ creation => some creation
  | .failure | .runtimeMatch _ => none

@[simp] theorem runtime?_ofMatches (runtime creation : Option MatchResult) :
    (ofMatches runtime creation).runtime? = runtime := by
  cases runtime <;> cases creation <;> rfl

@[simp] theorem creation?_ofMatches (runtime creation : Option MatchResult) :
    (ofMatches runtime creation).creation? = creation := by
  cases runtime <;> cases creation <;> rfl

/-- An outcome tells nothing else than what it tells of the two codes. -/
@[simp] theorem ofMatches_parts (outcome : Outcome) :
    ofMatches outcome.runtime? outcome.creation? = outcome := by
  cases outcome <;> rfl

theorem eq_failure_iff (outcome : Outcome) :
    outcome = .failure ↔ outcome.runtime? = none ∧ outcome.creation? = none := by
  cases outcome <;> simp [runtime?, creation?]

end Outcome

/-! ## One comparison -/

theorem matched?_eq_some_iff {compared : Except MatchError MatchResult} :
    matched? compared = some result ↔
      compared = .ok result ∧ result.status ≠ .different := by
  cases compared with
  | error failure => simp [matched?]
  | ok found =>
      simp only [matched?, MatchResult.isMatch, Except.ok.injEq,
        Option.ite_none_right_eq_some, Option.some.injEq, bne_iff_ne]
      constructor
      · intro both
        exact ⟨both.2, both.2 ▸ both.1⟩
      · intro both
        exact ⟨both.1 ▸ both.2, both.1⟩

theorem matched?_eq_none_iff {compared : Except MatchError MatchResult} :
    matched? compared = none ↔
      ∀ result, compared = .ok result → result.status = .different := by
  simp [Option.eq_none_iff_forall_ne_some, matched?_eq_some_iff]

/-! ## The two comparisons -/

/-- The outcome has a result for the runtime code exactly if this code is known and its
comparison ends with this result, which is a match. -/
theorem runtime?_verify_eq_some_iff :
    (verify style onChain compiled).runtime? = some result ↔
      ∃ code, onChain.runtime? = some code ∧
        Matching.matchRuntime style code compiled.runtime compiled.runtimeArtifacts =
          .ok result ∧ result.status ≠ .different := by
  simp only [verify, Outcome.runtime?_ofMatches, Option.bind_eq_some_iff,
    matched?_eq_some_iff]

/-- The outcome has a result for the creation code exactly if this code is known and its
comparison ends with this result, which is a match. -/
theorem creation?_verify_eq_some_iff :
    (verify style onChain compiled).creation? = some result ↔
      ∃ code, onChain.creation? = some code ∧
        Matching.matchCreation style code compiled.creation compiled.creationArtifacts
          compiled.compilation = .ok result ∧ result.status ≠ .different := by
  simp only [verify, Outcome.creation?_ofMatches, Option.bind_eq_some_iff,
    matched?_eq_some_iff]

/-- Two codes are verified as each of them is alone. -/
theorem verify_complete (style : Auxdata.Style) (runtime creation : Bytes)
    (compiled : Compiled) :
    verify style (.complete runtime creation) compiled =
      .ofMatches (verify style (.runtime runtime) compiled).runtime?
        (verify style (.creation creation) compiled).creation? := by
  simp only [verify, Outcome.runtime?_ofMatches, Outcome.creation?_ofMatches]
  rfl

/-- A runtime code that does not match, or that cannot be compared, might as well not be
known. -/
theorem verify_complete_of_runtime_unmatched {runtime : Bytes} (creation : Bytes)
    (unmatched : ∀ result,
      Matching.matchRuntime style runtime compiled.runtime compiled.runtimeArtifacts =
        .ok result → result.status = .different) :
    verify style (.complete runtime creation) compiled =
      verify style (.creation creation) compiled := by
  have nothing := matched?_eq_none_iff.mpr unmatched
  simp only [verify, OnChainCode.runtime?, OnChainCode.creation?, Option.bind_some,
    Option.bind_none, nothing]

/-- A creation code that does not match, or that cannot be compared, might as well not be
known. -/
theorem verify_complete_of_creation_unmatched (runtime : Bytes) {creation : Bytes}
    (unmatched : ∀ result,
      Matching.matchCreation style creation compiled.creation compiled.creationArtifacts
        compiled.compilation = .ok result → result.status = .different) :
    verify style (.complete runtime creation) compiled =
      verify style (.runtime runtime) compiled := by
  have nothing := matched?_eq_none_iff.mpr unmatched
  simp only [verify, OnChainCode.runtime?, OnChainCode.creation?, Option.bind_some,
    Option.bind_none, nothing]

theorem verify_complete_of_runtime_error {runtime : Bytes} (creation : Bytes)
    (failed : Matching.matchRuntime style runtime compiled.runtime
      compiled.runtimeArtifacts = .error error) :
    verify style (.complete runtime creation) compiled =
      verify style (.creation creation) compiled := by
  apply verify_complete_of_runtime_unmatched
  intro result matched
  cases failed.symm.trans matched

theorem verify_complete_of_creation_error (runtime : Bytes) {creation : Bytes}
    (failed : Matching.matchCreation style creation compiled.creation
      compiled.creationArtifacts compiled.compilation = .error error) :
    verify style (.complete runtime creation) compiled =
      verify style (.runtime runtime) compiled := by
  apply verify_complete_of_creation_unmatched
  intro result matched
  cases failed.symm.trans matched

/-! A library that the runtime code has no room for: the comparison of the runtime code
ends with an error, and the creation code is matched all the same. -/

def unlinkable : Compiled where
  runtime := .ofBytes [0x60]
  creation := .ofBytes [0x60]
  runtimeArtifacts :=
    { linkReferences :=
      Dictionary.empty.insert "a.sol" (Dictionary.empty.insert "L" [⟨8, 20⟩]) }

example : verify .solidity (.complete [0x60] [0x60]) unlinkable =
    .creationMatch (.ofPopulated .equivalent (.ofCode [0x60]) none) := by decide +kernel

/-- Verifying a contract fails exactly if no code that is known matches. -/
theorem verify_eq_failure_iff :
    verify style onChain compiled = .failure ↔
      (∀ code, onChain.runtime? = some code → ∀ result,
        Matching.matchRuntime style code compiled.runtime compiled.runtimeArtifacts =
          .ok result → result.status = .different) ∧
      ∀ code, onChain.creation? = some code → ∀ result,
        Matching.matchCreation style code compiled.creation compiled.creationArtifacts
          compiled.compilation = .ok result → result.status = .different := by
  simp only [Outcome.eq_failure_iff, verify, Outcome.runtime?_ofMatches,
    Outcome.creation?_ofMatches, Option.bind_eq_none_iff, matched?_eq_none_iff]

end ContractCode.Verification
