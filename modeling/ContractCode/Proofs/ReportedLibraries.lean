import ContractCode.Proofs.FaithfulValues

/-! # Which libraries are reported

The linking looks at the code as it is by then. A reference that earlier fillings have
brought to what is on chain is passed over, so the log of a match has a reference, or it
has other fillings that account for all of the reference's bytes that the compiled code
does not have.
-/

namespace ContractCode

variable {style : Auxdata.Style} {codeType : CodeType} {onChain : Bytes}
  {compiled : CompiledCode}
  {artifacts : CodeArtifacts} {compilation : CompilationArtifacts}
  {populated : PopulatedCode}
  {result : MatchResult} {name : String} {reference : Reference}

/-! ## Changed bytes -/

/-- The log has an entry for a byte that is not the one of the compiled code. -/
def ChangedAt (compiled : Bytes) (artifacts : CodeArtifacts) (log : List Transformation)
    (index : Nat) : Prop :=
  ReplacedAt compiled artifacts log index ∨ InsertedAt artifacts log index

theorem AccountedFor.changedAt {code : Bytes} {log : List Transformation} {index : Nat}
    (accounted : AccountedFor compiled.code artifacts log code)
    (inside : index < code.length)
    (differs : code[index]? ≠ compiled.code[index]?) :
    ChangedAt compiled.code artifacts log index := by
  rcases accounted.behind index inside with below | inserted
  · rcases accounted.below index below with same | replaced
    · exact absurd same differs
    · exact .inl replaced
  · exact .inr inserted

theorem ChangedAt.mono {log longer : List Transformation} {index : Nat}
    (kept : ∀ entry ∈ log, entry ∈ longer)
    (changed : ChangedAt compiled.code artifacts log index) :
    ChangedAt compiled.code artifacts longer index :=
  changed.imp (ReplacedAt.mono kept) (InsertedAt.mono kept)

/-! ## The step at a reference -/

theorem Library.Step.mem_log {placeholders : List Placeholder} {target : Target}
    {next : PopulatedCode} (step : Step placeholders onChain populated target next)
    {entry : Transformation} (member : entry ∈ populated.transformations) :
    entry ∈ next.transformations := by
  cases step with
  | missing inside absent => exact member
  | kept inside present keeps => exact member
  | linked inside present links => exact List.mem_append_left _ member

namespace Matching

/-- The linking starts with code that the log accounts for. -/
theorem linking_of_populate
    (filled : populate style codeType onChain compiled artifacts = .ok populated) :
    ∃ first : PopulatedCode,
      AccountedFor compiled.code artifacts first.transformations first.code ∧
      Library.resolve compiled.placeholders onChain artifacts.linkReferences first =
        .ok populated := by
  cases codeType with
  | creation => exact ⟨_, .self compiled.code artifacts [], filled⟩
  | runtime =>
      rcases populateRuntime_eq_ok_iff.mp filled with ⟨first, immutables, libraries⟩
      refine ⟨first, ?_, libraries⟩
      apply Immutable.resolve_preserves
        (fun state =>
          AccountedFor compiled.code artifacts state.transformations state.code) _
        immutables
      · exact .callProtectionStep
          (CallProtection.step_resolve onChain (.ofCode compiled.code))
      · intro state target next listed before step
        exact before.immutableStep listed step

/-- Every reference has its step, from code that the log accounts for, and its entries
stay in the log. -/
theorem step_of_populate
    (filled : populate style codeType onChain compiled artifacts = .ok populated)
    (listed : Library.Lists artifacts.linkReferences name reference) :
    ∃ state next : PopulatedCode,
      AccountedFor compiled.code artifacts state.transformations state.code ∧
      Library.Step compiled.placeholders onChain state ⟨name, reference⟩ next ∧
      ∀ entry ∈ next.transformations, entry ∈ populated.transformations := by
  rcases linking_of_populate filled with ⟨first, accounted, linked⟩
  have member :
      (⟨name, reference⟩ : Library.Target) ∈ Library.targets artifacts.linkReferences :=
    Library.mem_targets_iff.mpr listed
  rcases Run.step_of_mem linked member with
    ⟨earlier, later, state, next, order, ranEarlier, stepped, ranLater⟩
  refine ⟨state, next, ?_, Library.resolveTarget_eq_ok_iff.mp stepped, ?_⟩
  · apply Run.preserves
      (fun state =>
        AccountedFor compiled.code artifacts state.transformations state.code) _
      ranEarlier accounted
    intro state target next member before stepped
    have inTargets : target ∈ Library.targets artifacts.linkReferences := by
      rw [order]
      exact List.mem_append_left _ member
    exact before.libraryStep (Library.mem_targets_iff.mp inTargets)
      (Library.resolveTarget_eq_ok_iff.mp stepped)
  · intro entry logged
    apply Run.preserves (fun state => entry ∈ state.transformations) _ ranLater logged
    intro state target next _ before stepped
    exact (Library.resolveTarget_eq_ok_iff.mp stepped).mem_log before

/-! ## The log -/

/-- A reference that is there on chain is logged, or it is at no placeholder and what
differs in it was changed for other reasons. -/
theorem logged_or_changed
    (filled : populate style codeType onChain compiled artifacts = .ok populated)
    (listed : Library.Lists artifacts.linkReferences name reference)
    (present : reference.span.Within onChain.length) :
    .library reference.span.start name ∈ populated.transformations ∨
      CompiledCode.placeholderAt? compiled.placeholders reference.span.start = none ∧
        ∀ index, reference.span.Covers index → onChain[index]? ≠ compiled.code[index]? →
          ChangedAt compiled.code artifacts populated.transformations index := by
  rcases step_of_populate filled listed with ⟨state, next, accounted, step, kept⟩
  cases step with
  | missing inside absent => exact absurd present absent
  | linked inside _ links =>
      exact .inl (kept _ (List.mem_append_right _ List.mem_cons_self))
  | kept inside _ keeps =>
      rcases Library.decision_eq_keep_iff.mp keeps with ⟨unmarked, same⟩
      refine .inr ⟨unmarked, ?_⟩
      intro index covers differs
      apply ChangedAt.mono kept
      apply accounted.changedAt (Nat.lt_of_lt_of_le covers.2 inside)
      rw [Bytes.getElem?_eq_of_slice same covers]
      exact differs

/-! ## The map of libraries -/

/-- The fillings that are logged for a library are those of its references. -/
theorem linking_of_subject {filling : Filling} (declared : Declared artifacts filling)
    (about : filling.subject? = some (.library name)) :
    ∃ reference, Library.Lists artifacts.linkReferences name reference ∧
      filling = Library.linking ⟨name, reference⟩ := by
  cases declared with
  | callProtection => cases about
  | inserted listed => cases about
  | replaced listed => cases about
  | linked listed =>
      cases about
      exact ⟨_, listed, rfl⟩

theorem subject?_of_entry {filling : Filling} {offset : Nat}
    (entry : filling.entry = .library offset name) :
    filling.subject? = some (.library name) := by
  rcases filling with ⟨span, cause⟩
  cases cause with
  | callProtection => cases entry
  | insertImmutable id => cases entry
  | replaceImmutable id => cases entry
  | library other =>
      cases entry
      rfl

/-- A library that is logged has what is on chain at one of its logged references as its
value. -/
theorem value_of_logged {offset : Nat}
    (filled : populate style codeType onChain compiled artifacts = .ok populated)
    (logged : .library offset name ∈ populated.transformations) :
    ∃ reference, Library.Lists artifacts.linkReferences name reference ∧
      .library reference.span.start name ∈ populated.transformations ∧
      populated.values.libraries.get? name = some (onChain.slice reference.span) := by
  rcases FilledBy.of_populate filled with ⟨fillings, filledBy⟩
  have log : populated.transformations = fillings.map Filling.entry := by
    rw [filledBy.filled, PopulatedCode.fillAll_transformations]
    rfl
  rw [log] at logged ⊢
  rcases List.mem_map.mp logged with ⟨filling, member, entry⟩
  have value : populated.values.valueOf? (.library name) =
      (firstOf? fillings (.library name)).map fun filling =>
        onChain.slice filling.span := by
    rw [filledBy.filled, valueOf?_fillAll]
    rfl
  cases found : firstOf? fillings (.library name) with
  | none =>
      have unmatched := List.find?_eq_none.mp found filling member
      exact absurd (subject?_of_entry entry) (by simpa using unmatched)
  | some first =>
      have firstMember := List.mem_of_find?_eq_some found
      rcases linking_of_subject (filledBy.declared first firstMember)
        (subject?_of_firstOf? found)
        with ⟨reference, listed, rfl⟩
      refine ⟨reference, listed, List.mem_map.mpr ⟨_, firstMember, rfl⟩, ?_⟩
      rw [found] at value
      exact value

theorem libraryMap_of_resultFor {input : Input} {status : MatchStatus}
    (found : resultFor input status populated = .ok result) :
    result.libraryMap = MatchResult.libraryMapOf result.values := by
  rw [resultFor] at found
  split at found
  · cases found
    rfl
  · rcases Run.bind_eq_ok_iff.mp found with ⟨extracted, _, final⟩
    cases final
    rfl

/-- The map of a match is that of its values. -/
theorem Outcome.libraryMap {input : Input} (outcome : Outcome input populated result)
    (isMatch : result.status ≠ .different) :
    result.libraryMap = MatchResult.libraryMapOf result.values := by
  cases outcome with
  | direct same found => exact libraryMap_of_resultFor found
  | substituted differs replaced same found => exact libraryMap_of_resultFor found
  | stripped differs same => rfl
  | different differs => exact absurd rfl isMatch

/-- The entries of a result for libraries are those of the code that was compared. -/
theorem Reports.mem_of_library {log : List Transformation} {values : RecordedValues}
    {offset : Nat}
    (reports : Reports populated log values) (logged : .library offset name ∈ log) :
    .library offset name ∈ populated.transformations := by
  rcases reports.log with ⟨added, longer, reasons⟩
  rw [longer] at logged
  rcases List.mem_append.mp logged with here | there
  · exact here
  · rcases reasons _ there with reason | reason <;> cases reason

/-! ## Matches -/

/-- A match logs every reference to a library that is there on chain and has its library
in the map, with what is on chain at one of its references. It leaves out only a
reference at no placeholder, all of whose bytes that differ from the compiled code are
in the log for other reasons. -/
theorem library_of_match
    (matched :
      matchCode style codeType onChain compiled artifacts compilation = .ok result)
    (isMatch : result.status ≠ .different)
    (listed : Library.Lists artifacts.linkReferences name reference)
    (present : reference.span.Within onChain.length) :
    (.library reference.span.start name ∈ result.transformations ∧
      ∃ libraryMap first, result.libraryMap = some libraryMap ∧
        Library.Lists artifacts.linkReferences name first ∧
        .library first.span.start name ∈ result.transformations ∧
        libraryMap.get? name = some (Hex.render (onChain.slice first.span))) ∨
    (.library reference.span.start name ∉ result.transformations ∧
      CompiledCode.placeholderAt? compiled.placeholders reference.span.start = none ∧
      ∀ index, reference.span.Covers index → onChain[index]? ≠ compiled.code[index]? →
        ReplacedAt compiled.code artifacts result.transformations index ∨
          InsertedAt artifacts result.transformations index) := by
  rcases matchCode_eq_ok_iff.mp matched with ⟨populated, filled, compared⟩
  have outcome := outcome_of_compare compared
  have reports := outcome.reports isMatch
  by_cases logged : .library reference.span.start name ∈ populated.transformations
  · rcases value_of_logged filled logged with ⟨first, firstListed, firstLogged, value⟩
    rw [← reports.libraries] at value
    rcases MatchResult.exists_libraryMapOf value with ⟨libraryMap, mapped, address⟩
    exact .inl ⟨reports.mem_log logged, libraryMap, first,
      (outcome.libraryMap isMatch).trans mapped, firstListed, reports.mem_log firstLogged,
      address⟩
  · rcases logged_or_changed filled listed present with here | ⟨unmarked, changed⟩
    · exact absurd here logged
    · refine .inr ⟨fun inResult => logged (reports.mem_of_library inResult), unmarked, ?_⟩
      intro index covers differs
      exact (changed index covers differs).mono fun entry => reports.mem_log

/-! A library whose reference is the address that the call protection has filled in
before. -/

def guardedCode : CompiledCode := .ofBytes (0x73 :: List.replicate 20 0 ++ [0x30])

def guardedOnChain : Bytes := 0x73 :: List.replicate 20 1 ++ [0x30]

def referenceAtAddress : CodeArtifacts where
  linkReferences :=
    Dictionary.empty.insert "a.sol" (Dictionary.empty.insert "L" [⟨1, 20⟩])

def guardedResult : MatchResult :=
  .ofPopulated .equivalent
    { code := guardedOnChain
      transformations := [.callProtection 1]
      values := { callProtection := some (List.replicate 20 1) } } none

theorem matchCode_guardedCode :
    matchCode .solidity .runtime guardedOnChain guardedCode referenceAtAddress {} =
      .ok guardedResult := by
  decide +kernel

theorem lists_referenceAtAddress :
    Library.Lists referenceAtAddress.linkReferences "a.sol:L" ⟨1, 20⟩ :=
  Library.mem_targets_iff.mp
    (show (⟨"a.sol:L", ⟨1, 20⟩⟩ : Library.Target) ∈ _ by decide +kernel)

theorem library_of_guardedCode :
    matchCode .solidity .runtime guardedOnChain guardedCode referenceAtAddress {} =
        .ok guardedResult ∧
      guardedResult.status ≠ .different ∧
      Library.Lists referenceAtAddress.linkReferences "a.sol:L" ⟨1, 20⟩ ∧
      Span.Within ⟨1, 20⟩ guardedOnChain.length ∧
      ((.library 1 "a.sol:L" ∈ guardedResult.transformations ∧
        ∃ libraryMap first, guardedResult.libraryMap = some libraryMap ∧
          Library.Lists referenceAtAddress.linkReferences "a.sol:L" first ∧
          .library first.span.start "a.sol:L" ∈ guardedResult.transformations ∧
          libraryMap.get? "a.sol:L" =
            some (Hex.render (guardedOnChain.slice first.span))) ∨
      (.library 1 "a.sol:L" ∉ guardedResult.transformations ∧
        CompiledCode.placeholderAt? guardedCode.placeholders 1 = none ∧
        ∀ index, Span.Covers ⟨1, 20⟩ index →
          guardedOnChain[index]? ≠ guardedCode.code[index]? →
            ReplacedAt guardedCode.code referenceAtAddress
              guardedResult.transformations index ∨
              InsertedAt referenceAtAddress guardedResult.transformations index)) :=
  ⟨matchCode_guardedCode, by decide, lists_referenceAtAddress, by decide +kernel,
    library_of_match matchCode_guardedCode (by decide) lists_referenceAtAddress
      (by decide +kernel)⟩

/-- A library that differs on chain need not be logged or in the map. -/
theorem not_library_of_match :
    ¬ ∀ (style : Auxdata.Style) (codeType : CodeType) (onChain : Bytes)
      (compiled : CompiledCode)
        (artifacts : CodeArtifacts) (compilation : CompilationArtifacts)
        (result : MatchResult),
      matchCode style codeType onChain compiled artifacts compilation = .ok result →
        result.status ≠ .different → ∀ name reference,
          Library.Lists artifacts.linkReferences name reference →
          reference.span.Within onChain.length →
          onChain.slice reference.span ≠ compiled.code.slice reference.span →
          .library reference.span.start name ∈ result.transformations ∧
            ∃ libraryMap address, result.libraryMap = some libraryMap ∧
              libraryMap.get? name = some address := by
  intro all
  have reported := all _ _ _ _ _ _ _ matchCode_guardedCode (by decide) "a.sol:L" ⟨1, 20⟩
    lists_referenceAtAddress (by decide +kernel) (by decide +kernel)
  exact absurd reported.1 (by decide +kernel)

end Matching

end ContractCode
