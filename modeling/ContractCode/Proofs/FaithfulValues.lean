import ContractCode.Proofs.Outcome
import Mathlib.Data.List.Basic

/-! # The values of references

What the resolvers do to code is a list of fillings. The value that is recorded for an
immutable or a library is that of its first filling, so the values tell the truth about
all of them exactly if no two fillings of the same immutable or library differ on chain.
-/

namespace ContractCode

/-! ## Lists of fillings -/

namespace PopulatedCode

def fillAll (onChain : Bytes) (fillings : List Filling) (populated : PopulatedCode) :
    PopulatedCode :=
  fillings.foldl (fun state filling => state.fill onChain filling) populated

theorem fillAll_concat (onChain : Bytes) (fillings : List Filling) (filling : Filling)
    (populated : PopulatedCode) :
    populated.fillAll onChain (fillings ++ [filling]) =
      (populated.fillAll onChain fillings).fill onChain filling := by
  rw [fillAll, List.foldl_append]
  rfl

theorem fillAll_transformations (onChain : Bytes) (fillings : List Filling)
    (populated : PopulatedCode) :
    (populated.fillAll onChain fillings).transformations =
      populated.transformations ++ fillings.map Filling.entry := by
  induction fillings generalizing populated with
  | nil => exact (List.append_nil _).symm
  | cons filling fillings induction =>
      rw [fillAll, List.foldl_cons]
      exact (induction _).trans (List.append_assoc _ _ _)

end PopulatedCode

/-- The filling is that of the call protection or of a reference that the compiler
lists. -/
inductive Declared (artifacts : CodeArtifacts) : Filling → Prop
  | callProtection : Declared artifacts CallProtection.filling
  | inserted {target : Immutable.Target}
      (listed :
        Immutable.Lists artifacts.immutableReferences target.id target.reference) :
      Declared artifacts (Immutable.insertion target)
  | replaced {target : Immutable.Target}
      (listed :
        Immutable.Lists artifacts.immutableReferences target.id target.reference) :
      Declared artifacts (Immutable.replacement target)
  | linked {target : Library.Target}
      (listed : Library.Lists artifacts.linkReferences target.name target.reference) :
      Declared artifacts (Library.linking target)

/-- The fillings lead from one state to the other. -/
structure FilledBy (artifacts : CodeArtifacts) (onChain : Bytes) (fillings : List Filling)
    (first last : PopulatedCode) : Prop where
  declared : ∀ filling ∈ fillings, Declared artifacts filling
  present : ∀ filling ∈ fillings, filling.span.Within onChain.length
  filled : last = first.fillAll onChain fillings

namespace FilledBy

variable {artifacts : CodeArtifacts} {onChain : Bytes} {fillings : List Filling}
  {filling : Filling}
  {first middle last : PopulatedCode}

theorem nil : FilledBy artifacts onChain [] first first where
  declared := nofun
  present := nofun
  filled := rfl

theorem concat (before : FilledBy artifacts onChain fillings first middle)
    (declared : Declared artifacts filling)
    (present : filling.span.Within onChain.length) :
    FilledBy artifacts onChain (fillings ++ [filling]) first
      (middle.fill onChain filling) where
  declared :=
    List.forall_mem_append.mpr ⟨before.declared, List.forall_mem_singleton.mpr declared⟩
  present :=
  List.forall_mem_append.mpr ⟨before.present, List.forall_mem_singleton.mpr present⟩
  filled := by rw [PopulatedCode.fillAll_concat, before.filled]

theorem callProtectionStep (step : CallProtection.Step onChain first last) :
    ∃ fillings, FilledBy artifacts onChain fillings first last := by
  cases step with
  | filled awaits pushes differs => exact ⟨_, nil.concat .callProtection pushes.2⟩
  | kept same => exact ⟨_, nil⟩

theorem immutableStep {style : Auxdata.Style} {target : Immutable.Target}
    (listed : Immutable.Lists artifacts.immutableReferences target.id target.reference)
    (before : FilledBy artifacts onChain fillings first middle)
    (step : Immutable.Step style onChain middle target last) :
    ∃ fillings, FilledBy artifacts onChain fillings first last := by
  cases step with
  | missing absent => exact ⟨_, before⟩
  | appended present atEnd => exact ⟨_, before.concat (.inserted listed) present⟩
  | kept present notAtEnd inside same => exact ⟨_, before⟩
  | replaced present notAtEnd inside differs =>
      exact ⟨_, before.concat (.replaced listed) present⟩

theorem libraryStep {placeholders : List Placeholder} {target : Library.Target}
    (listed : Library.Lists artifacts.linkReferences target.name target.reference)
    (before : FilledBy artifacts onChain fillings first middle)
    (step : Library.Step placeholders onChain middle target last) :
    ∃ fillings, FilledBy artifacts onChain fillings first last := by
  cases step with
  | missing inside absent => exact ⟨_, before⟩
  | kept inside present keeps => exact ⟨_, before⟩
  | linked inside present links => exact ⟨_, before.concat (.linked listed) present⟩

theorem of_populate {style : Auxdata.Style} {codeType : CodeType}
    {compiled : CompiledCode}
    (filled : Matching.populate style codeType onChain compiled artifacts = .ok last) :
    ∃ fillings, FilledBy artifacts onChain fillings (.ofCode compiled.code) last := by
  apply Matching.populate_preserves
    (fun state =>
      ∃ fillings, FilledBy artifacts onChain fillings (.ofCode compiled.code) state)
    ⟨[], nil⟩ _ _ _ filled
  · intro next step
    exact callProtectionStep step
  · rintro state target next listed ⟨_, before⟩ step
    exact before.immutableStep listed step
  · rintro state target next listed ⟨_, before⟩ step
    exact before.libraryStep listed step

end FilledBy

/-! ## What a value belongs to -/

inductive Subject where
  | immutable (id : String)
  | library (name : String)
deriving DecidableEq

/-- What the filled bytes belong to; the address of the code itself is not referred to
by a name. -/
def Filling.subject? (filling : Filling) : Option Subject :=
  match filling.cause with
  | .callProtection => none
  | .insertImmutable id | .replaceImmutable id => some (.immutable id)
  | .library name => some (.library name)

def RecordedValues.valueOf? (values : RecordedValues) : Subject → Option Bytes
  | .immutable id => values.immutables.get? id
  | .library name => values.libraries.get? name

section

variable {onChain value : Bytes} {fillings : List Filling} {filling : Filling}
  {subject : Subject}
  {values : RecordedValues}

theorem valueOf?_record_of_eq (same : filling.subject? = some subject) :
    (filling.record value values).valueOf? subject =
      (values.valueOf? subject).or (some value) := by
  rcases filling with ⟨span, cause⟩
  cases cause with
  | callProtection => cases same
  | insertImmutable id | replaceImmutable id =>
      cases same
      exact Dictionary.get?_insertNew_self _ _ _
  | library name =>
      cases same
      exact Dictionary.get?_insertNew_self _ _ _

theorem valueOf?_record_of_ne (differs : filling.subject? ≠ some subject) :
    (filling.record value values).valueOf? subject = values.valueOf? subject := by
  rcases filling with ⟨span, cause⟩
  cases cause with
  | callProtection => cases subject <;> rfl
  | insertImmutable id | replaceImmutable id =>
      cases subject with
      | immutable other =>
          apply Dictionary.get?_insertNew_of_ne
          rintro rfl
          exact differs rfl
      | library name => rfl
  | library name =>
      cases subject with
      | immutable id => rfl
      | library other =>
          apply Dictionary.get?_insertNew_of_ne
          rintro rfl
          exact differs rfl

def firstOf? (fillings : List Filling) (subject : Subject) : Option Filling :=
  fillings.find? fun filling => filling.subject? = some subject

theorem firstOf?_cons_of_eq (same : filling.subject? = some subject) :
    firstOf? (filling :: fillings) subject = some filling :=
  List.find?_cons_of_pos (decide_eq_true same)

theorem firstOf?_cons_of_ne (differs : filling.subject? ≠ some subject) :
    firstOf? (filling :: fillings) subject = firstOf? fillings subject :=
  List.find?_cons_of_neg (by simpa using differs)

theorem subject?_of_firstOf? (found : firstOf? fillings subject = some filling) :
    filling.subject? = some subject := by
  rw [firstOf?] at found
  have holds := List.find?_some found
  exact of_decide_eq_true holds

/-- A value that was there stays; otherwise that of the first filling is recorded. -/
theorem valueOf?_fillAll (populated : PopulatedCode) :
    (populated.fillAll onChain fillings).values.valueOf? subject =
      (populated.values.valueOf? subject).or
        ((firstOf? fillings subject).map fun filling => onChain.slice filling.span) := by
  induction fillings generalizing populated with
  | nil => simp [PopulatedCode.fillAll, firstOf?]
  | cons filling fillings induction =>
      have rest := induction (populated.fill onChain filling)
      rw [PopulatedCode.fillAll] at rest
      rw [PopulatedCode.fillAll, List.foldl_cons, rest, PopulatedCode.fill_values]
      by_cases same : filling.subject? = some subject
      · rw [valueOf?_record_of_eq same, firstOf?_cons_of_eq same]
        cases populated.values.valueOf? subject <;> simp
      · rw [valueOf?_record_of_ne same, firstOf?_cons_of_ne same]

/-- The value of every filled reference is the one that is recorded for its subject. -/
def Faithful (onChain : Bytes) (values : RecordedValues)
    (fillings : List Filling) : Prop :=
  ∀ filling ∈ fillings, ∀ subject, filling.subject? = some subject →
    values.valueOf? subject = some (onChain.slice filling.span)

/-- References of one subject have the same value on chain. -/
def Consistent (onChain : Bytes) (fillings : List Filling) : Prop :=
  ∀ first ∈ fillings, ∀ second ∈ fillings, ∀ subject, first.subject? = some subject →
    second.subject? = some subject → onChain.slice first.span = onChain.slice second.span

theorem faithful_iff_consistent
    (recorded : ∀ subject, values.valueOf? subject =
      (firstOf? fillings subject).map fun filling => onChain.slice filling.span) :
    Faithful onChain values fillings ↔ Consistent onChain fillings := by
  constructor
  · intro faithful first inFirst second inSecond subject firstSubject secondSubject
    have same := (faithful first inFirst subject firstSubject).symm.trans
      (faithful second inSecond subject secondSubject)
    exact Option.some.inj same
  · intro consistent filling member subject about
    rw [recorded]
    cases found : firstOf? fillings subject with
    | none =>
        have unmatched := List.find?_eq_none.mp found filling member
        exact absurd about (by simpa using unmatched)
    | some first =>
        have same :=
          consistent first (List.mem_of_find?_eq_some found) filling member subject
          (subject?_of_firstOf? found) about
        exact congrArg some same

end

/-! ## The values of a match -/

namespace Matching

variable {style : Auxdata.Style} {codeType : CodeType} {onChain : Bytes}
  {compiled : CompiledCode}
  {artifacts : CodeArtifacts} {compilation : CompilationArtifacts} {result : MatchResult}

theorem Reports.valueOf? {populated : PopulatedCode} {log : List Transformation}
    {values : RecordedValues} (reports : Reports populated log values)
    (subject : Subject) :
    values.valueOf? subject = populated.values.valueOf? subject := by
  cases subject with
  | immutable id => exact congrArg (·.get? id) reports.immutables
  | library name => exact congrArg (·.get? name) reports.libraries

/-- A match logs the fillings of the code and records the first value of each immutable
and library. The values are those of all fillings exactly if no two fillings of one
subject differ on chain. -/
theorem values_of_match
    (matched :
      matchCode style codeType onChain compiled artifacts compilation = .ok result)
    (isMatch : result.status ≠ .different) :
    ∃ populated fillings added,
      populate style codeType onChain compiled artifacts = .ok populated ∧
      FilledBy artifacts onChain fillings (.ofCode compiled.code) populated ∧
      result.transformations = fillings.map Filling.entry ++ added ∧
      (∀ entry ∈ added, entry.reason = .cborAuxdata ∨
        entry.reason = .constructorArguments) ∧
      (∀ subject, result.values.valueOf? subject =
        (firstOf? fillings subject).map fun filling => onChain.slice filling.span) ∧
      (Faithful onChain result.values fillings ↔ Consistent onChain fillings) := by
  rcases matchCode_eq_ok_iff.mp matched with ⟨populated, filled, compared⟩
  have reports := (outcome_of_compare compared).reports isMatch
  rcases FilledBy.of_populate filled with ⟨fillings, filledBy⟩
  rcases reports.log with ⟨added, logged, reasons⟩
  have log : populated.transformations = fillings.map Filling.entry := by
    rw [filledBy.filled, PopulatedCode.fillAll_transformations]
    rfl
  have recorded : ∀ subject, result.values.valueOf? subject =
      (firstOf? fillings subject).map fun filling => onChain.slice filling.span := by
    intro subject
    rw [reports.valueOf?, filledBy.filled, valueOf?_fillAll]
    cases subject <;> rfl
  refine ⟨populated, fillings, added, filled, filledBy, ?_, reasons, recorded, ?_⟩
  · rw [logged, log]
  · exact faithful_iff_consistent recorded

/-! Two references of a library at which the code on chain has two addresses. -/

def oneLibrary : CompiledCode := .ofBytes (0x60 :: List.replicate 40 0)

def twoAddresses : Bytes := 0x60 :: List.replicate 20 1 ++ List.replicate 20 2

def twoReferences : CodeArtifacts where
  linkReferences :=
    Dictionary.empty.insert "a.sol" (Dictionary.empty.insert "L" [⟨1, 20⟩, ⟨21, 20⟩])

def twoAddressesResult : MatchResult :=
  .ofPopulated .equivalent
    { code := twoAddresses
      transformations := [.library 1 "a.sol:L", .library 21 "a.sol:L"]
      values :=
      { libraries := Dictionary.empty.insert "a.sol:L" (List.replicate 20 1) } } none

theorem matchCode_oneLibrary :
    matchCode .solidity .creation twoAddresses oneLibrary twoReferences {} =
      .ok twoAddressesResult := by
  decide +kernel

theorem values_of_twoAddresses :
    matchCode .solidity .creation twoAddresses oneLibrary twoReferences {} =
      .ok twoAddressesResult ∧
      twoAddressesResult.status ≠ .different ∧
      ∃ populated fillings added,
        populate .solidity .creation twoAddresses oneLibrary twoReferences =
          .ok populated ∧
        FilledBy twoReferences twoAddresses fillings (.ofCode oneLibrary.code) populated ∧
        twoAddressesResult.transformations = fillings.map Filling.entry ++ added ∧
        (∀ entry ∈ added, entry.reason = .cborAuxdata ∨
          entry.reason = .constructorArguments) ∧
        (∀ subject, twoAddressesResult.values.valueOf? subject =
          (firstOf? fillings subject).map fun filling =>
            twoAddresses.slice filling.span) ∧
        (Faithful twoAddresses twoAddressesResult.values fillings ↔
          Consistent twoAddresses fillings) :=
  ⟨matchCode_oneLibrary, by decide, values_of_match matchCode_oneLibrary (by decide)⟩

/-- The value of a library need not be that of all of its references. -/
theorem not_value_of_every_reference :
    ¬ ∀ (style : Auxdata.Style) (codeType : CodeType) (onChain : Bytes)
      (compiled : CompiledCode)
        (artifacts : CodeArtifacts) (compilation : CompilationArtifacts)
        (result : MatchResult),
      matchCode style codeType onChain compiled artifacts compilation = .ok result →
        result.status ≠ .different → ∀ name reference,
          Library.Lists artifacts.linkReferences name reference →
          .library reference.span.start name ∈ result.transformations →
          result.values.libraries.get? name = some (onChain.slice reference.span) := by
  intro all
  have listed : Library.Lists twoReferences.linkReferences "a.sol:L" ⟨21, 20⟩ :=
    Library.mem_targets_iff.mp
      (show (⟨"a.sol:L", ⟨21, 20⟩⟩ : Library.Target) ∈ _ by decide +kernel)
  have faithful :=
    all _ _ _ _ _ _ _ matchCode_oneLibrary (by decide) "a.sol:L" ⟨21, 20⟩ listed
    (by decide +kernel)
  exact absurd faithful (by decide +kernel)

end Matching

end ContractCode
