import ContractCode.Proofs.ArgumentsOffset
import ContractCode.Proofs.ReportedLibraries
import ContractCode.Proofs.ResolverOrder

/-! # Log and values

What is recorded is logged, and what is logged is recorded. The values of libraries,
immutables and metadata chunks are kept under the ids that their entries in the log
have; an address of the code itself and constructor arguments have no id and one value
each. Every writer keeps that, so it holds after any resolvers with any code on chain,
and of the result of every comparison.
-/

namespace ContractCode

variable {log : List Transformation} {entry : Transformation}
  {values next : RecordedValues}
  {populated : PopulatedCode} {onChain : Bytes}

/-! ## Coherence -/

/-- The ids of the entries that the log has for a reason. -/
def loggedIds (reason : TransformationReason) (log : List Transformation) :
    List (Option String) :=
  (log.filter fun entry => entry.reason = reason).map (·.id)

/-- The values for a reason are those of entries with these ids. A library or an
immutable may have several entries, a metadata chunk and constructor arguments have
one. -/
def RecordedValues.TellOf (values : RecordedValues) (ids : List (Option String)) :
    TransformationReason → Prop
  | .callProtection => ids ≠ [] ↔ values.callProtection.isSome = true
  | .cborAuxdata => ids.Perm (values.cborAuxdata.keys.map some)
  | .constructorArguments =>
      ids = if values.constructorArguments.isSome then [none] else []
  | .immutable => ∀ id, id ∈ ids ↔ id ∈ values.immutables.keys.map some
  | .library => ∀ id, id ∈ ids ↔ id ∈ values.libraries.keys.map some

/-- The log and the values tell of the same things. -/
def Coherent (log : List Transformation) (values : RecordedValues) : Prop :=
  ∀ reason, values.TellOf (loggedIds reason log) reason

theorem loggedIds_concat_self (log : List Transformation) (entry : Transformation) :
    loggedIds entry.reason (log ++ [entry]) =
      loggedIds entry.reason log ++ [entry.id] := by
  simp [loggedIds]

theorem loggedIds_concat_of_ne {reason : TransformationReason}
    (other : entry.reason ≠ reason) :
    loggedIds reason (log ++ [entry]) = loggedIds reason log := by
  simp [loggedIds, other]

theorem loggedIds_eq_nil {reason : TransformationReason}
    (others : ∀ entry ∈ log, entry.reason ≠ reason) : loggedIds reason log = [] := by
  simpa [loggedIds] using others

theorem mem_concat_iff_mem_keys_insertNew {ids : List (Option String)}
    {group : Dictionary Bytes}
    (same : ∀ id, id ∈ ids ↔ id ∈ group.keys.map some) (key : String) (value : Bytes)
    (id : Option String) :
    id ∈ ids ++ [some key] ↔ id ∈ (group.insertNew key value).keys.map some := by
  rw [List.mem_append, same, List.mem_singleton, List.mem_map, List.mem_map]
  simp only [Dictionary.mem_keys_insertNew]
  constructor
  · rintro (⟨known, member, rfl⟩ | rfl)
    · exact ⟨known, .inr member, rfl⟩
    · exact ⟨key, .inl rfl, rfl⟩
  · rintro ⟨known, rfl | member, rfl⟩
    · exact .inr rfl
    · exact .inl ⟨known, member, rfl⟩

namespace Coherent

theorem empty : Coherent [] {} := by
  intro reason
  cases reason with
  | callProtection => exact iff_of_false (fun nonempty => nonempty rfl) Bool.false_ne_true
  | cborAuxdata => exact .refl _
  | constructorArguments => rfl
  | immutable | library => exact fun id => Iff.rfl

/-! ## Writers

An entry and a value for its reason are added together; the values for other reasons
stay. -/

theorem concat (coherent : Coherent log values)
    (others : ∀ reason ids, entry.reason ≠ reason → values.TellOf ids reason →
      next.TellOf ids reason)
    (added : values.TellOf (loggedIds entry.reason log) entry.reason →
      next.TellOf (loggedIds entry.reason log ++ [entry.id]) entry.reason) :
    Coherent (log ++ [entry]) next := by
  intro reason
  by_cases same : entry.reason = reason
  · subst same
    rw [loggedIds_concat_self]
    exact added (coherent _)
  · rw [loggedIds_concat_of_ne same]
    exact others reason _ same (coherent reason)

theorem addCallProtection (coherent : Coherent log values) (offset : Nat)
    (value : Bytes) :
    Coherent (log ++ [.callProtection offset]) (values.addCallProtection value) := by
  apply coherent.concat
  · intro reason ids other before
    cases reason with
    | callProtection => exact absurd rfl other
    | cborAuxdata | constructorArguments | immutable | library => exact before
  · exact fun _ =>
      iff_of_true (List.append_ne_nil_of_right_ne_nil _ (List.cons_ne_nil _ _)) rfl

theorem addImmutable (coherent : Coherent log values) {id : String}
    (reason : entry.reason = .immutable)
    (named : entry.id = some id) (value : Bytes) :
    Coherent (log ++ [entry]) (values.addImmutable id value) := by
  apply coherent.concat
  · intro reason ids other before
    cases reason with
    | immutable => contradiction
    | callProtection | cborAuxdata | constructorArguments | library => exact before
  · rw [reason, named]
    exact fun before => mem_concat_iff_mem_keys_insertNew before id value

theorem addLibrary (coherent : Coherent log values) (offset : Nat) (name : String)
    (value : Bytes) :
    Coherent (log ++ [.library offset name]) (values.addLibrary name value) := by
  apply coherent.concat
  · intro reason ids other before
    cases reason with
    | library => exact absurd rfl other
    | callProtection | cborAuxdata | constructorArguments | immutable => exact before
  · exact fun before => mem_concat_iff_mem_keys_insertNew before name value

theorem addCborAuxdata (coherent : Coherent log values) (offset : Nat) {id : String}
    (new : id ∉ values.cborAuxdata.keys) (value : Bytes) :
    Coherent (log ++ [.cborAuxdata offset id]) (values.addCborAuxdata id value) := by
  apply coherent.concat
  · intro reason ids other before
    cases reason with
    | cborAuxdata => exact absurd rfl other
    | callProtection | constructorArguments | immutable | library => exact before
  · intro before
    have keys := ((Dictionary.perm_keys_insert new value).map some).symm
    exact ((List.perm_append_singleton _ _).trans (before.cons _)).trans keys

theorem addConstructorArguments (coherent : Coherent log values) (offset : Nat)
    (new : values.constructorArguments = none) (value : Bytes) :
    Coherent (log ++ [.constructorArguments offset])
      (values.addConstructorArguments value) := by
  apply coherent.concat
  · intro reason ids other before
    cases reason with
    | constructorArguments => exact absurd rfl other
    | callProtection | cborAuxdata | immutable | library => exact before
  · intro before
    change loggedIds .constructorArguments log =
      if values.constructorArguments.isSome then [none] else [] at before
    rw [new] at before
    exact congrArg (· ++ [none]) before

/-! ## Resolvers -/

theorem fill (coherent : Coherent populated.transformations populated.values)
    (filling : Filling) :
    Coherent (populated.fill onChain filling).transformations
      (populated.fill onChain filling).values := by
  rcases filling with ⟨span, cause⟩
  cases cause with
  | callProtection => exact coherent.addCallProtection _ _
  | insertImmutable id | replaceImmutable id => exact coherent.addImmutable rfl rfl _
  | library name => exact coherent.addLibrary _ _ _

theorem fillAll (coherent : Coherent populated.transformations populated.values)
    (fillings : List Filling) :
    Coherent (populated.fillAll onChain fillings).transformations
      (populated.fillAll onChain fillings).values := by
  induction fillings generalizing populated with
  | nil => exact coherent
  | cons filling fillings induction => exact induction (coherent.fill filling)

end Coherent

/-- A resolver with all that it is given; every attempt may see another code on chain. -/
structure Attempt where
  resolution : Resolution
  resolver : Resolver

/-- The code after an attempt. A resolver that fails leaves it as it was. -/
def PopulatedCode.after (populated : PopulatedCode) (attempt : Attempt) : PopulatedCode :=
  match attempt.resolution.run populated attempt.resolver with
  | .ok next => next
  | .error _ => populated

namespace Coherent

/-- A resolver does nothing but fill, so one that succeeds keeps what fillings keep. -/
theorem after (coherent : Coherent populated.transformations populated.values)
    (attempt : Attempt) :
    Coherent (populated.after attempt).transformations
      (populated.after attempt).values := by
  rw [PopulatedCode.after, Resolution.run_eq_fillings]
  cases attempt.resolution.fillings (attempt.resolution.actions attempt.resolver)
    populated with
  | error failure => exact coherent
  | ok fillings => exact coherent.fillAll fillings

theorem afterAll (coherent : Coherent populated.transformations populated.values)
    (attempts : List Attempt) :
    Coherent (attempts.foldl PopulatedCode.after populated).transformations
      (attempts.foldl PopulatedCode.after populated).values := by
  induction attempts generalizing populated with
  | nil => exact coherent
  | cons attempt attempts induction => exact induction (coherent.after attempt)

end Coherent

/-! ## Results -/

namespace Matching

variable {style : Auxdata.Style} {codeType : CodeType} {compiled : CompiledCode}
  {artifacts : CodeArtifacts} {compilation : CompilationArtifacts} {input : Input}
  {final : PopulatedCode} {result : MatchResult}

theorem coherent_of_populate
    (filled : populate style codeType onChain compiled artifacts = .ok populated) :
    Coherent populated.transformations populated.values := by
  rcases FilledBy.of_populate filled with ⟨fillings, filledBy⟩
  rw [filledBy.filled]
  exact Coherent.fillAll .empty fillings

theorem coherent_recordSubstitutions {substitutions : List Substitution}
    (coherent : Coherent populated.transformations populated.values)
    (distinct : (substitutions.map (·.id)).Nodup)
    (new : ∀ substitution ∈ substitutions,
      substitution.id ∉ populated.values.cborAuxdata.keys) :
    Coherent (substitutions.foldl recordSubstitution populated).transformations
      (substitutions.foldl recordSubstitution populated).values := by
  induction substitutions generalizing populated with
  | nil => exact coherent
  | cons substitution substitutions induction =>
      rcases List.nodup_cons.mp distinct with ⟨once, distinct⟩
      rcases List.forall_mem_cons.mp new with ⟨here, later⟩
      apply induction _ distinct
      · intro other member known
        rcases List.mem_cons.mp
          ((Dictionary.perm_keys_insert here _).mem_iff.mp known) with same | old
        · exact once (List.mem_map.mpr ⟨other, member, same⟩)
        · exact later other member old
      · exact coherent.addCborAuxdata _ here _

theorem coherent_of_substituteChunks {chunks : PlacedChunks}
    (coherent : Coherent populated.transformations populated.values)
    (new : populated.values.cborAuxdata = .empty)
    (replaced : substituteChunks style onChain chunks populated = .ok (some final)) :
    Coherent final.transformations final.values := by
  rcases substituteChunks_eq_ok_some replaced with ⟨last, ran, rfl⟩
  apply coherent_recordSubstitutions
  · exact coherent
  · exact nodup_ids_of_run ran
  · intro substitution _ known
    rw [new] at known
    cases known

theorem constructorArguments_eq_none
    (coherent : Coherent populated.transformations populated.values)
    (new : ∀ entry ∈ populated.transformations, entry.reason ≠ .constructorArguments) :
    populated.values.constructorArguments = none := by
  have ids : loggedIds .constructorArguments populated.transformations =
      if populated.values.constructorArguments.isSome then [none] else [] :=
    coherent .constructorArguments
  rw [loggedIds_eq_nil new] at ids
  cases found : populated.values.constructorArguments with
  | none => rfl
  | some arguments =>
      rw [found] at ids
      cases ids

theorem coherent_recordArguments {extracted : ConstructorArguments.Extracted}
    {code : Bytes}
    {abi : Option Json} (coherent : Coherent populated.transformations populated.values)
    (new : ∀ entry ∈ populated.transformations, entry.reason ≠ .constructorArguments)
    (found : ConstructorArguments.extract code onChain abi = .ok extracted) :
    Coherent (recordArguments populated extracted).transformations
      (recordArguments populated extracted).values := by
  have none := constructorArguments_eq_none coherent new
  rw [ConstructorArguments.extract] at found
  split at found
  · cases found
    exact coherent
  · rcases Run.bind_eq_ok_iff.mp found with ⟨inputs, _, extraction⟩
    cases extraction
    split
    · exact coherent.addConstructorArguments _ none _
    · exact coherent

theorem coherent_of_resultFor {status : MatchStatus}
    (coherent : Coherent populated.transformations populated.values)
    (new : ∀ entry ∈ populated.transformations, entry.reason ≠ .constructorArguments)
    (found : resultFor input status populated = .ok result) :
    Coherent result.transformations result.values := by
  rw [resultFor] at found
  split at found
  · cases found
    exact coherent
  · rcases Run.bind_eq_ok_iff.mp found with ⟨extracted, extraction, final⟩
    cases final
    exact coherent_recordArguments coherent new extraction

theorem Outcome.coherent (outcome : Outcome input populated result)
    (coherent : Coherent populated.transformations populated.values)
    (bare : IsBare populated) :
    Coherent result.transformations result.values := by
  cases outcome with
  | direct same found => exact coherent_of_resultFor coherent bare.log found
  | substituted differs replaced same found =>
      exact coherent_of_resultFor
        (coherent_of_substituteChunks coherent bare.chunks replaced)
        (bare.log_of_substituteChunks replaced) found
  | stripped differs same => exact coherent
  | different differs => exact .empty

/-- The map of libraries is that of the values, also for codes that are different. -/
theorem Outcome.libraryMap_eq_some_iff (outcome : Outcome input populated result)
    (libraryMap : Dictionary String) :
    result.libraryMap = some libraryMap ↔
      result.values.libraries.isEmpty = false ∧
      libraryMap = result.values.libraryMap := by
  have mapped : result.libraryMap = MatchResult.libraryMapOf result.values := by
    by_cases isMatch : result.status = .different
    · rw [outcome.eq_plain isMatch]
      rfl
    · exact outcome.libraryMap isMatch
  rw [mapped, MatchResult.libraryMapOf]
  cases result.values.libraries.isEmpty with
  | true => simp
  | false => simp [eq_comm]

end Matching

/-- The parts of a result tell of the same things, and codes that are different have
none of them. -/
structure MatchResult.IsCoherent (result : MatchResult) : Prop where
  log : Coherent result.transformations result.values
  libraryMap : ∀ libraryMap, result.libraryMap = some libraryMap ↔
    result.values.libraries.isEmpty = false ∧ libraryMap = result.values.libraryMap
  different : result.status = .different →
    result.transformations = [] ∧ result.values = {} ∧ result.libraryMap = none

namespace Matching

/-- The parts of the result of a comparison tell of the same things. -/
theorem isCoherent_of_matchCode
    (matched : matchCode style codeType onChain compiled artifacts compilation =
      .ok result) : result.IsCoherent := by
  rcases matchCode_eq_ok_iff.mp matched with ⟨populated, filled, compared⟩
  have outcome := outcome_of_compare compared
  refine ⟨?_, outcome.libraryMap_eq_some_iff, ?_⟩
  · exact outcome.coherent (coherent_of_populate filled) (IsBare.of_populate filled)
  · intro different
    rw [outcome.eq_plain different]
    exact ⟨rfl, rfl, rfl⟩

/-- The log and the values of code are coherent after any attempts to fill it, and so
are all parts of the result of a comparison. -/
theorem log_tells_of_values :
    (∀ (code : Bytes) (attempts : List Attempt),
      Coherent (attempts.foldl PopulatedCode.after (.ofCode code)).transformations
        (attempts.foldl PopulatedCode.after (.ofCode code)).values) ∧
    ∀ style codeType onChain compiled artifacts compilation result,
      matchCode style codeType onChain compiled artifacts compilation = .ok result →
        result.IsCoherent := by
  constructor
  · intro code attempts
    exact Coherent.afterAll .empty attempts
  · intro style codeType onChain compiled artifacts compilation result matched
    exact isCoherent_of_matchCode matched

/-! Attempts to fill code with all that is on chain, one of which fails: the library is
not where the code could have it. -/

def misplacedLibrary : Resolution :=
  { Resolution.threefold with
    libraries :=
      Dictionary.empty.insert "a.sol" (Dictionary.empty.insert "M" [⟨40, 20⟩]) }

def mixedAttempts : List Attempt :=
  [⟨.threefold, .immutables⟩, ⟨misplacedLibrary, .libraries⟩, ⟨.threefold, .libraries⟩,
    ⟨.threefold, .callProtection⟩]

theorem log_tells_of_values_mixed :
    matchCode .solidity .creation withoutVersion withVersion versionAtEnd
      numberConstructor =
        .ok withoutVersionResult ∧
      Coherent
        (mixedAttempts.foldl PopulatedCode.after Resolution.threefoldCode).transformations
        (mixedAttempts.foldl PopulatedCode.after Resolution.threefoldCode).values ∧
      withoutVersionResult.IsCoherent := by
  have matched : matchCode .solidity .creation withoutVersion withVersion versionAtEnd
      numberConstructor = .ok withoutVersionResult := matchCreation_withVersion
  have told := log_tells_of_values
  exact ⟨matched, told.1 Resolution.threefoldCode.code mixedAttempts,
    told.2 _ _ _ _ _ _ _ matched⟩

example :
    (mixedAttempts.foldl PopulatedCode.after Resolution.threefoldCode).transformations =
    [.insertImmutable 42 "0", .library 22 "a.sol:L", .callProtection 1] := by
  decide +kernel

end Matching

end ContractCode
