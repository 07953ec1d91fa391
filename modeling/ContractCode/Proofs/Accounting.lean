import ContractCode.Proofs.Filling

/-! # What the log accounts for

Populated code differs from compiled code only where the log has an entry for a range
that the compiler declares, and it is longer only by immutables that the log has as
inserted.
-/

namespace ContractCode

/-- The log has the replacement of bytes at a reference that the compiler lists and that
covers the index. -/
inductive ReferencedAt (artifacts : CodeArtifacts) (log : List Transformation)
    (index : Nat) : Prop
  | immutable {id : String} {reference : Reference}
      (listed : Immutable.Lists artifacts.immutableReferences id reference)
      (covers : reference.span.Covers index)
      (logged : .replaceImmutable reference.span.start id ∈ log)
  | library {name : String} {reference : Reference}
      (listed : Library.Lists artifacts.linkReferences name reference)
      (covers : reference.span.Covers index)
      (logged : .library reference.span.start name ∈ log)

/-- The log has the replacement of bytes at the index: of the address that the code
awaits, or at a reference. -/
inductive ReplacedAt (compiled : Bytes) (artifacts : CodeArtifacts)
    (log : List Transformation)
    (index : Nat) : Prop
  | callProtection (awaits : CallProtection.Awaits compiled)
      (covers : CallProtection.addressSpan.Covers index)
      (logged : .callProtection CallProtection.addressSpan.start ∈ log)
  | reference (referenced : ReferencedAt artifacts log index)

/-- The log has the insertion of an immutable that the compiler declares there. -/
def InsertedAt (artifacts : CodeArtifacts) (log : List Transformation)
    (index : Nat) : Prop :=
  ∃ id reference, Immutable.Lists artifacts.immutableReferences id reference ∧
    reference.span.Covers index ∧ .insertImmutable reference.span.start id ∈ log

/-- The log accounts for all that the code has other than the compiled code. -/
structure AccountedFor (compiled : Bytes) (artifacts : CodeArtifacts)
    (log : List Transformation)
    (code : Bytes) : Prop where
  reaches : compiled.length ≤ code.length
  below : ∀ index < compiled.length,
    code[index]? = compiled[index]? ∨ ReplacedAt compiled artifacts log index
  behind : ∀ index < code.length, index < compiled.length ∨ InsertedAt artifacts log index

section Accounting

variable {compiled onChain code : Bytes} {artifacts : CodeArtifacts}
  {log longer : List Transformation} {populated next : PopulatedCode}

theorem ReferencedAt.mono {index : Nat} (kept : ∀ entry ∈ log, entry ∈ longer)
    (referenced : ReferencedAt artifacts log index) :
    ReferencedAt artifacts longer index := by
  cases referenced with
  | immutable listed covers logged => exact .immutable listed covers (kept _ logged)
  | library listed covers logged => exact .library listed covers (kept _ logged)

theorem ReplacedAt.mono {index : Nat} (kept : ∀ entry ∈ log, entry ∈ longer)
    (replaced : ReplacedAt compiled artifacts log index) :
    ReplacedAt compiled artifacts longer index := by
  cases replaced with
  | callProtection awaits covers logged =>
      exact .callProtection awaits covers (kept _ logged)
  | reference referenced => exact .reference (referenced.mono kept)

theorem InsertedAt.mono {index : Nat} (kept : ∀ entry ∈ log, entry ∈ longer)
    (inserted : InsertedAt artifacts log index) : InsertedAt artifacts longer index := by
  rcases inserted with ⟨id, reference, listed, covers, logged⟩
  exact ⟨id, reference, listed, covers, kept _ logged⟩

theorem AccountedFor.mono (kept : ∀ entry ∈ log, entry ∈ longer)
    (accounted : AccountedFor compiled artifacts log code) :
    AccountedFor compiled artifacts longer code where
  reaches := accounted.reaches
  below index bound := (accounted.below index bound).imp_right (ReplacedAt.mono kept)
  behind index bound := (accounted.behind index bound).imp_right (InsertedAt.mono kept)

theorem AccountedFor.self (compiled : Bytes) (artifacts : CodeArtifacts)
    (log : List Transformation) : AccountedFor compiled artifacts log compiled where
  reaches := Nat.le_refl _
  below _ _ := .inl rfl
  behind _ bound := .inl bound

/-- A filling is accounted for if its entry accounts for the bytes that it covers. -/
theorem AccountedFor.fill {filling : Filling}
    (accounted : AccountedFor compiled artifacts populated.transformations populated.code)
    (present : filling.span.Within onChain.length)
    (reaches : filling.span.start ≤ populated.code.length)
    (replaces : ∀ index < compiled.length, filling.span.Covers index →
      ReplacedAt compiled artifacts
        (populated.fill onChain filling).transformations index)
    (inserts : ∀ index, populated.code.length ≤ index → filling.span.Covers index →
      InsertedAt artifacts (populated.fill onChain filling).transformations index) :
    AccountedFor compiled artifacts (populated.fill onChain filling).transformations
      (populated.fill onChain filling).code := by
  have before :
      AccountedFor compiled artifacts (populated.fill onChain filling).transformations
      populated.code := accounted.mono fun entry member => List.mem_append_left _ member
  have length := PopulatedCode.length_fill_code present reaches
  refine ⟨?_, ?_, ?_⟩
  · have := accounted.reaches
    omega
  · intro index bound
    by_cases covers : filling.span.Covers index
    · exact .inr (replaces index bound covers)
    · rw [PopulatedCode.getElem?_fill_code_of_not_covers present reaches covers]
      exact before.below index bound
  · intro index bound
    by_cases old : index < populated.code.length
    · exact before.behind index old
    · apply Or.inr
      apply inserts index (by omega)
      constructor <;> omega

/-! Every step of a resolver keeps the accounting. -/

theorem AccountedFor.callProtectionStep
    (step : CallProtection.Step onChain (.ofCode compiled) next) :
    AccountedFor compiled artifacts next.transformations next.code := by
  cases step with
  | kept same => exact .self compiled artifacts _
  | filled awaits pushes differs =>
      apply AccountedFor.fill (.self compiled artifacts []) pushes.2
      · exact awaits.1.2.start_le
      · intro index bound covers
        exact .callProtection awaits covers List.mem_cons_self
      · intro index beyond covers
        have inside : CallProtection.addressSpan.stop ≤ compiled.length := awaits.1.2
        have covered : index < CallProtection.addressSpan.stop := covers.2
        exact absurd (Nat.lt_of_lt_of_le covered inside) (Nat.not_lt.mpr beyond)

theorem AccountedFor.immutableStep {style : Auxdata.Style} {target : Immutable.Target}
    (listed : Immutable.Lists artifacts.immutableReferences target.id target.reference)
    (accounted : AccountedFor compiled artifacts populated.transformations populated.code)
    (step : Immutable.Step style onChain populated target next) :
    AccountedFor compiled artifacts next.transformations next.code := by
  cases step with
  | missing absent => exact accounted
  | kept present notAtEnd inside same => exact accounted
  | appended present atEnd =>
      have start := (Immutable.appends_eq_true_iff.mp atEnd).2
      apply accounted.fill present (Nat.le_of_eq start)
      · intro index bound covers
        have compiledFits := accounted.reaches
        have behindCode : populated.code.length ≤ index := start ▸ covers.1
        omega
      · intro index beyond covers
        exact ⟨target.id, target.reference, listed, covers,
          List.mem_append_right _ List.mem_cons_self⟩
  | replaced present notAtEnd inside differs =>
      apply accounted.fill present inside.start_le
      · intro index bound covers
        exact .reference
          (.immutable listed covers (List.mem_append_right _ List.mem_cons_self))
      · intro index beyond covers
        exact absurd (Nat.lt_of_lt_of_le covers.2 inside) (Nat.not_lt.mpr beyond)

theorem AccountedFor.libraryStep {placeholders : List Placeholder}
    {target : Library.Target}
    (listed : Library.Lists artifacts.linkReferences target.name target.reference)
    (accounted : AccountedFor compiled artifacts populated.transformations populated.code)
    (step : Library.Step placeholders onChain populated target next) :
    AccountedFor compiled artifacts next.transformations next.code := by
  cases step with
  | missing inside absent => exact accounted
  | kept inside present keeps => exact accounted
  | linked inside present links =>
      apply accounted.fill present inside.start_le
      · intro index bound covers
        exact .reference
          (.library listed covers (List.mem_append_right _ List.mem_cons_self))
      · intro index beyond covers
        exact absurd (Nat.lt_of_lt_of_le covers.2 inside) (Nat.not_lt.mpr beyond)

end Accounting

end ContractCode
