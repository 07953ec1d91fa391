import ContractCode.Proofs.LinkedCode

/-! # What follows creation code

The result for creation code depends on what follows the code on chain in one way only:
bytes that are arguments for the constructor are logged and recorded, and other bytes
are told of in the message. The interface document is read only if something follows.
-/

namespace ContractCode.Matching

variable {input : Input} {inputs : List Abi.Parameter} {status : MatchStatus}
  {populated : PopulatedCode} {abi : Option Json}

/-- There is no interface document, or one that can be read. -/
def IsReadable (abi : Option Json) : Prop :=
  ∀ json, abi = some json → ∃ document, Abi.Document.ofJson? json = some document

theorem isReadable_none : IsReadable none := nofun

theorem IsReadable.exists_inputs (readable : IsReadable abi) :
    ∃ inputs, ConstructorArguments.inputs abi = .ok inputs := by
  cases abi with
  | none => exact ⟨[], rfl⟩
  | some json =>
      rcases readable json rfl with ⟨document, read⟩
      refine ⟨document.constructorInputs, ?_⟩
      rw [ConstructorArguments.inputs, read]

/-- The code with what follows it in the log and among the values, if that is an
encoding of arguments. -/
def withArguments (inputs : List Abi.Parameter) (trailing : Bytes)
    (populated : PopulatedCode) :
    PopulatedCode :=
  if trailing ≠ [] ∧ ConstructorArguments.areValid inputs trailing = true then
    ⟨populated.code,
      populated.transformations ++ [.constructorArguments populated.code.length],
      populated.values.addConstructorArguments trailing⟩
  else populated

theorem withArguments_of_no_inputs (trailing : Bytes) (populated : PopulatedCode) :
    withArguments [] trailing populated = populated :=
  if_neg fun holds => Bool.false_ne_true holds.2

theorem extract_of_follows {code onChain : Bytes}
    (read : ConstructorArguments.inputs abi = .ok inputs)
    (follows : onChain.drop code.length ≠ []) :
    ConstructorArguments.extract code onChain abi =
      .ok {
        arguments := some (onChain.drop code.length)
        transformations :=
          if ConstructorArguments.areValid inputs (onChain.drop code.length) then
            [.constructorArguments code.length]
          else [] } := by
  rw [ConstructorArguments.extract]
  split
  · rename_i nothing
    exact absurd nothing follows
  · rw [read]
    rfl

theorem resultFor_of_inputs (creation : input.codeType = .creation)
    (read : ConstructorArguments.inputs input.abi = .ok inputs) :
    resultFor input status populated =
      .ok (.ofPopulated status
        (withArguments inputs (input.onChain.drop populated.code.length) populated)
        (trailingMessage inputs (input.onChain.drop populated.code.length))) := by
  rw [resultFor, creation]
  dsimp only
  by_cases nothing : input.onChain.drop populated.code.length = []
  · rw [ConstructorArguments.extract, nothing]
    rfl
  · rw [extract_of_follows read nothing]
    generalize input.onChain.drop populated.code.length = trailing at nothing ⊢
    by_cases valid : ConstructorArguments.areValid inputs trailing = true
    · have recorded : withArguments inputs trailing populated = _ :=
        if_pos ⟨nothing, valid⟩
      have message : trailingMessage inputs trailing = none := if_pos (.inr valid)
      rw [if_pos valid, recorded, message]
      rfl
    · have recorded : withArguments inputs trailing populated = populated :=
        if_neg fun holds => valid holds.2
      have message : trailingMessage inputs trailing = some invalidArgumentsMessage :=
        if_neg (not_or.mpr ⟨nothing, valid⟩)
      rw [if_neg valid, recorded, message]
      rfl

theorem resultFor_of_no_abi (creation : input.codeType = .creation)
    (noAbi : input.abi = none) :
    resultFor input status populated =
      .ok (.ofPopulated status populated
        (trailingMessage [] (input.onChain.drop populated.code.length))) := by
  have read : ConstructorArguments.inputs input.abi = .ok [] := by
    rw [noAbi]
    rfl
  rw [resultFor_of_inputs creation read, withArguments_of_no_inputs]

/-- A document that can be read is no obstacle to a result. -/
theorem exists_resultFor (readable : IsReadable input.abi) (status : MatchStatus)
    (populated : PopulatedCode) :
    ∃ result, resultFor input status populated = .ok result := by
  cases codeType : input.codeType with
  | creation =>
      rcases readable.exists_inputs with ⟨inputs, read⟩
      exact ⟨_, resultFor_of_inputs codeType read⟩
  | runtime => exact ⟨_, by rw [resultFor, codeType]⟩

end ContractCode.Matching
