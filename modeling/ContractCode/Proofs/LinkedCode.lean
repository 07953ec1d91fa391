import ContractCode.Proofs.Outcome

/-! # Linked code matches

Deployed code that differs from compiled code only where the compiler left room for
addresses and immutables is recognised. While the code is filled, the spans that are
still `Pending` hold what the compiler put there, and everything else is as it is on
chain.
-/

namespace ContractCode

structure Pending (compiled onChain : Bytes) (pending : List Span)
    (code : Bytes) : Prop where
  length : code.length = compiled.length
  reaches : compiled.length ≤ onChain.length
  within : ∀ span ∈ pending, span.Within compiled.length
  disjoint : pending.Pairwise Span.Disjoint
  untouched : ∀ span ∈ pending, ∀ index, span.Covers index →
      code[index]? = compiled[index]?
  settled : ∀ index < compiled.length, (∀ span ∈ pending, ¬ span.Covers index) →
    code[index]? = onChain[index]?

namespace Pending

variable {compiled onChain code next : Bytes} {span : Span} {rest others : List Span}
  {populated : PopulatedCode}

theorem eq_take (done : Pending compiled onChain [] code) :
    code = onChain.take compiled.length := by
  apply List.ext_getElem?
  intro index
  rw [List.getElem?_take]
  split
  · rename_i below
    exact done.settled index below nofun
  · rename_i beyond
    rw [List.getElem?_eq_none]
    rw [done.length]
    exact Nat.not_lt.mp beyond

theorem perm (pending : Pending compiled onChain rest code) (same : rest.Perm others) :
    Pending compiled onChain others code where
  length := pending.length
  reaches := pending.reaches
  within span member := pending.within span (same.mem_iff.mpr member)
  disjoint := pending.disjoint.perm same fun apart => apart.symm
  untouched span member := pending.untouched span (same.mem_iff.mpr member)
  settled index below outside :=
    pending.settled index below fun span member => outside span (same.mem_iff.mp member)

theorem present (pending : Pending compiled onChain (span :: rest) code) :
    span.Within onChain.length :=
  Nat.le_trans (pending.within span List.mem_cons_self) pending.reaches

theorem inside (pending : Pending compiled onChain (span :: rest) code) :
    span.Within code.length := by
  rw [pending.length]
  exact pending.within span List.mem_cons_self

theorem slice_eq (pending : Pending compiled onChain (span :: rest) code) :
    code.slice span = compiled.slice span :=
  Bytes.slice_congr (pending.untouched span List.mem_cons_self)

/-- A span that has got what is on chain is pending no more. -/
theorem settle (pending : Pending compiled onChain (span :: rest) code)
    (length : next.length = code.length)
    (filled : ∀ index, span.Covers index → next[index]? = onChain[index]?)
    (kept : ∀ index, ¬ span.Covers index → next[index]? = code[index]?) :
    Pending compiled onChain rest next where
  length := length.trans pending.length
  reaches := pending.reaches
  within other member := pending.within other (List.mem_cons_of_mem _ member)
  disjoint := (List.pairwise_cons.mp pending.disjoint).2
  untouched other member index covers := by
    have apart := (List.pairwise_cons.mp pending.disjoint).1 other member
    rw [kept index fun covered => apart index covered covers]
    exact pending.untouched other (List.mem_cons_of_mem _ member) index covers
  settled index below outside := by
    by_cases covers : span.Covers index
    · exact filled index covers
    · rw [kept index covers]
      apply pending.settled index below
      intro other member
      rcases List.mem_cons.mp member with here | there
      · exact here ▸ covers
      · exact outside other there

theorem fill {filling : Filling}
    (pending : Pending compiled onChain (filling.span :: rest) populated.code) :
    Pending compiled onChain rest (populated.fill onChain filling).code := by
  have reaches : filling.span.start ≤ populated.code.length := pending.inside.start_le
  apply pending.settle
  · exact PopulatedCode.length_fill_code_of_within pending.present pending.inside
  · intro index covers
    exact PopulatedCode.getElem?_fill_code_of_covers pending.present reaches covers
  · intro index outside
    exact PopulatedCode.getElem?_fill_code_of_not_covers pending.present reaches outside

theorem keep (pending : Pending compiled onChain (span :: rest) code)
    (same : code.slice span = onChain.slice span) :
    Pending compiled onChain rest code := by
  apply pending.settle rfl
  · intro index covers
    exact Bytes.getElem?_eq_of_slice same covers
  · intro index _
    rfl

end Pending

/-! ## Filling pending spans

No resolver fails on code of which it finds its spans as the compiler left them. -/

/-- The place of the address that the code starts by pushing, if that is not known yet. -/
def CallProtection.awaitedSpans (code : Bytes) : List Span :=
  if Awaits code then [addressSpan] else []

def Immutable.spans (references : ImmutableReferences) : List Span :=
  (targets references).map (·.reference.span)

def Library.spans (references : LinkReferences) : List Span :=
  (targets references).map (·.reference.span)

/-- Where the reference starts there is a placeholder of the library, or its bytes are
zero. -/
def Library.IsLinkable (compiled : CompiledCode) (target : Target) : Prop :=
  (match
    CompiledCode.placeholderAt? compiled.placeholders target.reference.span.start with
  | some placeholder => isPlaceholderOf placeholder.text target.name
  | none => (compiled.code.slice target.reference.span).allZero) = true

instance (compiled : CompiledCode) (target : Library.Target) :
    Decidable (Library.IsLinkable compiled target) :=
  inferInstanceAs (Decidable (_ = true))

/-- Nothing is refused at a reference whose bytes are still those of the compiled code. -/
theorem Library.decision_of_isLinkable {onChain : Bytes} {compiled : CompiledCode}
    {populated : PopulatedCode} {target : Target} (linkable : IsLinkable compiled target)
    (untouched : populated.code.slice target.reference.span =
      compiled.code.slice target.reference.span) :
    decision compiled.placeholders onChain populated target = .keep ∨
      decision compiled.placeholders onChain populated target = .link := by
  rw [IsLinkable] at linkable
  split at linkable
  · rename_i placeholder found
    exact .inr (decision_eq_link_of_placeholder found linkable)
  · rename_i found
    rw [← untouched] at linkable
    by_cases same : populated.code.slice target.reference.span =
      onChain.slice target.reference.span
    · exact .inl (decision_eq_keep_iff.mpr ⟨found, same⟩)
    · exact .inr (decision_eq_link_of_allZero found same linkable)

namespace Pending

variable {compiled onChain : Bytes} {populated : PopulatedCode} {rest : List Span}

theorem callProtection
    (first : CallProtection.Awaits compiled → onChain.head? = compiled.head?)
    (pending :
      Pending compiled onChain (CallProtection.awaitedSpans compiled ++ rest) compiled) :
    Pending compiled onChain rest
      (CallProtection.resolve onChain (.ofCode compiled)).code := by
  have step := CallProtection.step_resolve onChain (.ofCode compiled)
  generalize CallProtection.resolve onChain (.ofCode compiled) = next at step ⊢
  by_cases awaits : CallProtection.Awaits compiled
  · rw [CallProtection.awaitedSpans, if_pos awaits] at pending
    have pushes : CallProtection.Pushes onChain :=
      ⟨(first awaits).trans awaits.1.1, pending.present⟩
    cases step with
    | filled _ _ differs => exact fill pending
    | kept same => exact pending.keep (same awaits pushes)
  · rw [CallProtection.awaitedSpans, if_neg awaits] at pending
    cases step with
    | filled awaited _ _ => exact absurd awaited awaits
    | kept same => exact pending

theorem immutables {references : ImmutableReferences}
    (pending : Pending compiled onChain (Immutable.spans references ++ rest)
      populated.code) :
    ∃ next, Immutable.resolve .solidity onChain references populated = .ok next ∧
      Pending compiled onChain rest next.code := by
  have ordered : Pending compiled onChain
      ((Immutable.orderedTargets references).map (·.reference.span) ++ rest)
        populated.code :=
    pending.perm (((List.mergeSort_perm _ _).symm.map _).append_right rest)
  apply Run.succeeds (fun (state : PopulatedCode) (targets : List Immutable.Target) =>
    Pending compiled onChain (targets.map (·.reference.span) ++ rest)
      state.code) _ ordered
  intro state target targets _ before
  have notAtEnd : Immutable.appends .solidity state.code target.reference.span =
      false := rfl
  by_cases same : state.code.slice target.reference.span =
    onChain.slice target.reference.span
  · exact ⟨state,
      Immutable.resolveTarget_eq_ok_iff.mpr
        (.kept before.present notAtEnd before.inside same),
      before.keep same⟩
  · exact ⟨state.fill onChain (Immutable.replacement target),
      Immutable.resolveTarget_eq_ok_iff.mpr
        (.replaced before.present notAtEnd before.inside same),
      fill before⟩

theorem libraries {code : CompiledCode} {references : LinkReferences}
    (linkable : ∀ target ∈ Library.targets references, Library.IsLinkable code target)
    (pending : Pending code.code onChain (Library.spans references) populated.code) :
    ∃ next, Library.resolve code.placeholders onChain references populated = .ok next ∧
      Pending code.code onChain [] next.code := by
  have unlinked : Pending code.code onChain
      ((Library.targets references).map (·.reference.span)) populated.code := pending
  apply Run.succeeds (fun (state : PopulatedCode) (targets : List Library.Target) =>
    Pending code.code onChain (targets.map (·.reference.span)) state.code) _ unlinked
  intro state target targets member before
  rcases Library.decision_of_isLinkable (linkable target member) before.slice_eq with
    keeps | links
  · exact ⟨state,
      Library.resolveTarget_eq_ok_iff.mpr (.kept before.inside before.present keeps),
      before.keep (Library.decision_eq_keep_iff.mp keeps).2⟩
  · exact ⟨state.fill onChain (Library.linking target),
      Library.resolveTarget_eq_ok_iff.mpr (.linked before.inside before.present links),
      fill before⟩

end Pending

/-! ## Deployments -/

namespace Matching

variable {codeType : CodeType} {onChain : Bytes} {compiled : CompiledCode}
  {artifacts : CodeArtifacts}
  {compilation : CompilationArtifacts} {populated : PopulatedCode} {input : Input}
  {inputs : List Abi.Parameter} {status : MatchStatus}

def referenceSpans (codeType : CodeType) (artifacts : CodeArtifacts) : List Span :=
  match codeType with
  | .creation => Library.spans artifacts.linkReferences
  | .runtime =>
    Immutable.spans artifacts.immutableReferences ++
      Library.spans artifacts.linkReferences

/-- The place of the code's own address, which only runtime code has. -/
def protectionSpans (codeType : CodeType) (compiled : CompiledCode) : List Span :=
  match codeType with
  | .creation => []
  | .runtime => CallProtection.awaitedSpans compiled.code

def protectionSpan : Span := ⟨0, 21⟩

/-- What the compiler tells about the code belongs to it. -/
structure WellPlaced (codeType : CodeType) (compiled : CompiledCode)
    (artifacts : CodeArtifacts) :
    Prop where
  nonempty : compiled.code ≠ []
  within : ∀ span ∈ referenceSpans codeType artifacts, span.Within compiled.code.length
  disjoint : (referenceSpans codeType artifacts).Pairwise Span.Disjoint
  unprotected : codeType = .runtime → CallProtection.Awaits compiled.code →
    ∀ span ∈ referenceSpans codeType artifacts, protectionSpan.Disjoint span
  linkable : ∀ target ∈ Library.targets artifacts.linkReferences,
    Library.IsLinkable compiled target
  chunks : ∀ numbered ∈ numberedChunks artifacts.metadataChunks,
    numbered.chunk.span.Within compiled.code.length

def HasLengthOf (codeType : CodeType) (compiled : CompiledCode)
    (onChain : Bytes) : Prop :=
  match codeType with
  | .creation => compiled.code.length ≤ onChain.length
  | .runtime => onChain.length = compiled.code.length

/-- The code on chain is the compiled code with anything at all in the spans that were
left for it. -/
structure DeployedFrom (codeType : CodeType) (compiled : CompiledCode)
    (artifacts : CodeArtifacts)
    (onChain : Bytes) : Prop where
  length : HasLengthOf codeType compiled onChain
  same : ∀ index < compiled.code.length,
    (∀ span ∈ protectionSpans codeType compiled ++ referenceSpans codeType artifacts,
      ¬ span.Covers index) → onChain[index]? = compiled.code[index]?

theorem DeployedFrom.reaches
    (deployed : DeployedFrom codeType compiled artifacts onChain) :
    compiled.code.length ≤ onChain.length := by
  have length := deployed.length
  cases codeType with
  | creation => exact length
  | runtime => exact Nat.le_of_eq length.symm

theorem mem_protectionSpans_iff {span : Span} :
    span ∈ protectionSpans codeType compiled ↔
      codeType = .runtime ∧ CallProtection.Awaits compiled.code ∧
      span = CallProtection.addressSpan := by
  cases codeType with
  | creation => simp [protectionSpans]
  | runtime =>
      rw [protectionSpans, CallProtection.awaitedSpans]
      split
      · rename_i awaits
        simp [awaits]
      · rename_i other
        simp [other]

theorem WellPlaced.disjoint_protectionSpans
    (placed : WellPlaced codeType compiled artifacts) :
    (protectionSpans codeType compiled ++
      referenceSpans codeType artifacts).Pairwise Span.Disjoint := by
  apply List.pairwise_append.mpr
  refine ⟨?_, placed.disjoint, ?_⟩
  · cases codeType with
    | creation => exact .nil
    | runtime =>
        rw [protectionSpans, CallProtection.awaitedSpans]
        split
        · exact List.pairwise_singleton _ _
        · exact .nil
  · intro span protection reference member index inProtection
    rcases mem_protectionSpans_iff.mp protection with ⟨runtime, awaits, rfl⟩
    apply placed.unprotected runtime awaits reference member index
    exact ⟨Nat.zero_le _, inProtection.2⟩

theorem pending_of_deployedFrom (placed : WellPlaced codeType compiled artifacts)
    (deployed : DeployedFrom codeType compiled artifacts onChain) :
    Pending compiled.code onChain
      (protectionSpans codeType compiled ++ referenceSpans codeType artifacts)
        compiled.code where
  length := rfl
  reaches := deployed.reaches
  within span member := by
    rcases List.mem_append.mp member with protection | reference
    · rcases mem_protectionSpans_iff.mp protection with ⟨_, awaits, rfl⟩
      exact awaits.1.2
    · exact placed.within span reference
  disjoint := placed.disjoint_protectionSpans
  untouched span member index covers := rfl
  settled index below outside := (deployed.same index below outside).symm

theorem head?_of_deployedFrom (placed : WellPlaced .runtime compiled artifacts)
    (deployed : DeployedFrom .runtime compiled artifacts onChain)
    (awaits : CallProtection.Awaits compiled.code) :
    onChain.head? = compiled.code.head? := by
  rw [List.head?_eq_getElem?, List.head?_eq_getElem?]
  apply deployed.same 0 (List.length_pos_iff.mpr placed.nonempty)
  intro span member
  rcases List.mem_append.mp member with protection | reference
  · rcases mem_protectionSpans_iff.mp protection with ⟨_, _, rfl⟩
    decide
  · exact placed.unprotected rfl awaits span reference 0 (by decide)

/-- Filling the code gives what is on chain, as far as the compiled code goes. -/
theorem populate_of_deployedFrom (placed : WellPlaced codeType compiled artifacts)
    (deployed : DeployedFrom codeType compiled artifacts onChain) :
    ∃ populated, populate .solidity codeType onChain compiled artifacts = .ok populated ∧
      populated.code = onChain.take compiled.code.length := by
  have pending := pending_of_deployedFrom placed deployed
  cases codeType with
  | creation =>
      have unlinked :
          Pending compiled.code onChain (Library.spans artifacts.linkReferences)
          (PopulatedCode.ofCode compiled.code).code := pending
      rcases unlinked.libraries placed.linkable with ⟨populated, resolved, done⟩
      exact ⟨populated, resolved, done.eq_take⟩
  | runtime =>
      have filled := pending.callProtection (head?_of_deployedFrom placed deployed)
      rcases filled.immutables with ⟨withImmutables, immutables, unlinked⟩
      rcases unlinked.libraries placed.linkable with ⟨populated, libraries, done⟩
      exact ⟨populated,
        populateRuntime_eq_ok_iff.mpr ⟨withImmutables, immutables, libraries⟩,
        done.eq_take⟩

def trailingMessage (inputs : List Abi.Parameter) (trailing : Bytes) : Option String :=
  if trailing = [] ∨ ConstructorArguments.areValid inputs trailing then none
  else some invalidArgumentsMessage

theorem extract_of_inputs {code : Bytes} {abi : Option Json}
    (readable : onChain.drop code.length ≠ [] →
      ConstructorArguments.inputs abi = .ok inputs) :
    ∃ extracted, ConstructorArguments.extract code onChain abi = .ok extracted ∧
      argumentsMessage extracted = trailingMessage inputs (onChain.drop code.length) := by
  rw [ConstructorArguments.extract]
  generalize onChain.drop code.length = trailing at readable ⊢
  cases trailing with
  | nil => exact ⟨{}, rfl, rfl⟩
  | cons byte trailing =>
      refine ⟨_,
        Run.bind_eq_ok_iff.mpr ⟨inputs, readable (List.cons_ne_nil _ _), rfl⟩, ?_⟩
      cases valid : ConstructorArguments.areValid inputs (byte :: trailing) with
      | true =>
          simp [argumentsMessage, ConstructorArguments.Extracted.isValidated,
            trailingMessage, valid]
      | false =>
          simp [argumentsMessage, ConstructorArguments.Extracted.isValidated,
            trailingMessage, valid]

theorem extract_of_inputs_error {code : Bytes} {abi : Option Json} {failure : MatchError}
    (follows : onChain.drop code.length ≠ [])
    (unreadable : ConstructorArguments.inputs abi = .error failure) :
    ConstructorArguments.extract code onChain abi = .error failure := by
  rw [ConstructorArguments.extract]
  generalize onChain.drop code.length = trailing at follows ⊢
  cases trailing with
  | nil => exact absurd rfl follows
  | cons byte trailing =>
      rw [unreadable]
      rfl

theorem isDeployed_take (length : HasLengthOf codeType compiled onChain) :
    IsDeployed codeType (onChain.take compiled.code.length) onChain := by
  cases codeType with
  | creation => exact List.take_prefix _ _
  | runtime => exact List.take_of_length_le (Nat.le_of_eq length)

/-- Filled code agrees with what is on chain, so the comparison ends with the first
result. -/
theorem matchCode_of_deployedFrom (placed : WellPlaced codeType compiled artifacts)
    (deployed : DeployedFrom codeType compiled artifacts onChain)
    (compilation : CompilationArtifacts) :
    ∃ populated, populated.code.length = compiled.code.length ∧
      matchCode .solidity codeType onChain compiled artifacts compilation =
        resultFor (inputFor .solidity codeType onChain compiled artifacts compilation)
          (directStatus .solidity compiled.code) populated := by
  rcases populate_of_deployedFrom placed deployed with ⟨populated, filled, code⟩
  have length : populated.code.length = compiled.code.length := by
    rw [code, List.length_take]
    exact Nat.min_eq_left deployed.reaches
  have checked : checkChunks artifacts.metadataChunks populated.code.length = .ok () := by
    rw [length]
    exact checkChunks_eq_ok_iff.mpr placed.chunks
  have nonempty : populated.code ≠ [] := by
    apply List.length_pos_iff.mp
    rw [length]
    exact List.length_pos_iff.mpr placed.nonempty
  have same : agrees codeType populated.code onChain = true := by
    apply agrees_eq_true_iff.mpr ⟨nonempty, ?_⟩
    rw [code]
    exact isDeployed_take deployed.length
  refine ⟨populated, length, ?_⟩
  rw [matchCode_of_populate filled]
  exact compare_of_agrees checked same

/-- Deployed code matches, and its interface is looked at only if something follows the
code. -/
theorem match_of_deployedFrom (placed : WellPlaced codeType compiled artifacts)
    (deployed : DeployedFrom codeType compiled artifacts onChain)
    (compilation : CompilationArtifacts) :
    (∀ inputs, (onChain.drop compiled.code.length ≠ [] →
        ConstructorArguments.inputs compilation.abi = .ok inputs) →
      ∃ result, matchCode .solidity codeType onChain compiled artifacts compilation =
        .ok result ∧
        result.status =
          (if Auxdata.hasContentHash .solidity compiled.code then .exactMatch
          else .equivalent) ∧
        result.message = trailingMessage inputs (onChain.drop compiled.code.length) ∧
        (codeType = .runtime → result.message = none)) ∧
    (onChain.drop compiled.code.length ≠ [] →
      ConstructorArguments.inputs compilation.abi = .error .invalidAbi →
      matchCode .solidity codeType onChain compiled artifacts compilation =
        .error .invalidAbi) := by
  rcases matchCode_of_deployedFrom placed deployed compilation with
    ⟨populated, length, matched⟩
  have runtimeEnds : codeType = .runtime → onChain.drop compiled.code.length = [] := by
    intro runtime
    subst runtime
    exact List.drop_eq_nil_of_le (Nat.le_of_eq deployed.length)
  rw [matched, ← length]
  rw [← length] at runtimeEnds
  constructor
  · intro inputs readable
    cases codeType with
    | creation =>
        rcases extract_of_inputs readable with ⟨extracted, found, message⟩
        exact ⟨_, Run.bind_eq_ok_iff.mpr ⟨extracted, found, rfl⟩, rfl, message, nofun⟩
    | runtime =>
        refine ⟨_, rfl, rfl, ?_, fun _ => rfl⟩
        rw [runtimeEnds rfl]
        rfl
  · intro follows unreadable
    cases codeType with
    | creation =>
        change (ConstructorArguments.extract populated.code onChain compilation.abi >>=
          _) = _
        rw [extract_of_inputs_error follows unreadable]
        rfl
    | runtime => exact absurd (runtimeEnds rfl) follows

/-! A library that is linked with two others, one at a placeholder and one at zero
bytes, and has an immutable whose deployed value is zero. -/

def protectedCode : CompiledCode where
  code :=
    0x73 :: List.replicate 20 0 ++ 0x30 :: List.replicate 20 0 ++ List.replicate 20 0 ++
    List.replicate 4 0
  placeholders := [⟨22, Library.namePlaceholder "a.sol:L"⟩]

def protectedRanges : CodeArtifacts where
  linkReferences := Dictionary.empty.insert "a.sol"
    ((Dictionary.empty.insert "L" [⟨22, 20⟩]).insert "M" [⟨42, 20⟩])
  immutableReferences := Dictionary.empty.insert "7" [⟨62, 4⟩]

def protectedOnChain : Bytes :=
  0x73 :: List.replicate 20 1 ++ 0x30 :: List.replicate 20 2 ++ List.replicate 20 3 ++
    List.replicate 4 0

theorem wellPlaced_protectedCode : WellPlaced .runtime protectedCode protectedRanges where
  nonempty := by decide
  within := by decide +kernel
  disjoint := by decide +kernel
  unprotected := by decide +kernel
  linkable := by
    have targets : Library.targets protectedRanges.linkReferences =
        [⟨"a.sol:L", ⟨22, 20⟩⟩, ⟨"a.sol:M", ⟨42, 20⟩⟩] := by decide +kernel
    rw [targets]
    refine List.forall_mem_cons.mpr ⟨?_, List.forall_mem_singleton.mpr ?_⟩
    · exact Library.isPlaceholderOf_namePlaceholder "a.sol:L"
    · decide +kernel
  chunks := by decide +kernel

theorem deployedFrom_protectedCode :
    DeployedFrom .runtime protectedCode protectedRanges protectedOnChain where
  length := rfl
  same := by decide +kernel

theorem match_of_protectedOnChain :
    WellPlaced .runtime protectedCode protectedRanges ∧
      DeployedFrom .runtime protectedCode protectedRanges protectedOnChain ∧
      ∃ result,
        matchCode .solidity .runtime protectedOnChain protectedCode protectedRanges {} =
          .ok result ∧
        result.status =
          (if Auxdata.hasContentHash .solidity protectedCode.code then .exactMatch
          else .equivalent) ∧
        result.message =
          trailingMessage [] (protectedOnChain.drop protectedCode.code.length) ∧
        (CodeType.runtime = .runtime → result.message = none) := by
  exact ⟨wellPlaced_protectedCode, deployedFrom_protectedCode,
    (match_of_deployedFrom wellPlaced_protectedCode deployedFrom_protectedCode {}).1 []
      fun _ => rfl⟩

end Matching

end ContractCode
