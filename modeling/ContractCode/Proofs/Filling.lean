import ContractCode.CallProtection
import ContractCode.Immutable
import ContractCode.Library
import ContractCode.Proofs.Run

/-! # Fillings

Whatever its cause, a change that a resolver makes fills one span of the code with the
bytes that are on chain in the same span. The `Step` relations say what becomes of the
code at one reference, and the `resolveTarget_eq_ok_iff` theorems that the resolvers
take these steps and no others.
-/

namespace ContractCode

inductive FillingCause where
  | callProtection
  | insertImmutable (id : String)
  | replaceImmutable (id : String)
  | library (name : String)
deriving DecidableEq

structure Filling where
  span : Span
  cause : FillingCause
deriving DecidableEq

namespace Filling

def entry (filling : Filling) : Transformation :=
  match filling.cause with
  | .callProtection => .callProtection filling.span.start
  | .insertImmutable id => .insertImmutable filling.span.start id
  | .replaceImmutable id => .replaceImmutable filling.span.start id
  | .library name => .library filling.span.start name

def record (filling : Filling) (value : Bytes) (values : RecordedValues) :
    RecordedValues :=
  match filling.cause with
  | .callProtection => values.addCallProtection value
  | .insertImmutable id | .replaceImmutable id => values.addImmutable id value
  | .library name => values.addLibrary name value

end Filling

namespace PopulatedCode

/-- Puts the bytes on chain into a span of the code. -/
def fill (onChain : Bytes) (filling : Filling) (populated : PopulatedCode) :
    PopulatedCode where
  code := populated.code.overwrite filling.span.start (onChain.slice filling.span)
  transformations := populated.transformations ++ [filling.entry]
  values := filling.record (onChain.slice filling.span) populated.values

variable {onChain : Bytes} {filling : Filling} {populated : PopulatedCode}

@[simp] theorem fill_transformations :
    (populated.fill onChain filling).transformations =
      populated.transformations ++ [filling.entry] := rfl

@[simp] theorem fill_values :
    (populated.fill onChain filling).values =
      filling.record (onChain.slice filling.span) populated.values := rfl

theorem getElem?_fill_code_of_covers (present : filling.span.Within onChain.length)
    (reaches : filling.span.start ≤ populated.code.length) {index : Nat}
    (covers : filling.span.Covers index) :
    (populated.fill onChain filling).code[index]? = onChain[index]? := by
  have bounds := covers
  simp only [Span.Covers, Span.stop] at bounds
  rw [fill, Bytes.getElem?_overwrite reaches, Bytes.length_slice present, if_pos bounds]
  exact Bytes.getElem?_slice_of_covers onChain covers

theorem getElem?_fill_code_of_not_covers (present : filling.span.Within onChain.length)
    (reaches : filling.span.start ≤ populated.code.length) {index : Nat}
    (outside : ¬ filling.span.Covers index) :
    (populated.fill onChain filling).code[index]? = populated.code[index]? := by
  rw [fill, Bytes.getElem?_overwrite reaches, Bytes.length_slice present]
  exact if_neg outside

theorem fill_code_of_start_eq_length
    (atEnd : filling.span.start = populated.code.length) :
    (populated.fill onChain filling).code =
      populated.code ++ onChain.slice filling.span := by
  rw [fill, atEnd]
  exact Bytes.overwrite_length _ _

theorem length_fill_code (present : filling.span.Within onChain.length)
    (reaches : filling.span.start ≤ populated.code.length) :
    (populated.fill onChain filling).code.length =
      max populated.code.length filling.span.stop := by
  rw [fill, Bytes.length_overwrite reaches, Bytes.length_slice present]
  rfl

theorem length_fill_code_of_within (present : filling.span.Within onChain.length)
    (inside : filling.span.Within populated.code.length) :
    (populated.fill onChain filling).code.length = populated.code.length := by
  rw [length_fill_code present inside.start_le]
  exact Nat.max_eq_left inside

end PopulatedCode

/-! ## Call protection -/

namespace CallProtection

def filling : Filling := ⟨addressSpan, .callProtection⟩

def Pushes (code : Bytes) : Prop :=
  code.head? = some pushAddress ∧ addressSpan.Within code.length

/-- The code starts by pushing an address that is not known yet. -/
def Awaits (code : Bytes) : Prop :=
  Pushes code ∧ (code.slice addressSpan).allZero = true

instance (code : Bytes) : Decidable (Pushes code) :=
  inferInstanceAs (Decidable (_ ∧ _))

instance (code : Bytes) : Decidable (Awaits code) :=
  inferInstanceAs (Decidable (_ ∧ _))

theorem address?_eq_some_iff {code address : Bytes} :
    address? code = some address ↔ Pushes code ∧ address = code.slice addressSpan := by
  rw [address?, Pushes]
  split
  · rename_i pushes
    rw [Bytes.slice?_eq_some_iff]
    exact ⟨fun found => ⟨⟨pushes, found.1⟩, found.2⟩, fun found => ⟨found.1.2, found.2⟩⟩
  · rename_i other
    constructor
    · intro found
      cases found
    · intro found
      exact absurd found.1.1 other

/-- Up to the end of the address such code has the instruction and zero bytes. -/
theorem Awaits.getElem? {code : Bytes} (awaits : Awaits code) {index : Nat}
    (inside : index < addressSpan.stop) :
    code[index]? = some (if index = 0 then pushAddress else 0) := by
  rcases Nat.eq_zero_or_pos index with atStart | later
  · rw [if_pos atStart, atStart, ← List.head?_eq_getElem?]
    exact awaits.1.1
  · rw [if_neg (Nat.ne_of_gt later)]
    exact Bytes.getElem?_of_allZero_slice awaits.2 ⟨later, inside⟩
      (Nat.lt_of_lt_of_le inside awaits.1.2)

inductive Step (onChain : Bytes) (populated : PopulatedCode) : PopulatedCode → Prop
  | filled (awaits : Awaits populated.code) (pushes : Pushes onChain)
      (differs : populated.code.slice addressSpan ≠ onChain.slice addressSpan) :
      Step onChain populated (populated.fill onChain filling)
  | kept (same : Awaits populated.code → Pushes onChain →
      populated.code.slice addressSpan = onChain.slice addressSpan) :
      Step onChain populated populated

theorem step_resolve (onChain : Bytes) (populated : PopulatedCode) :
    Step onChain populated (resolve onChain populated) := by
  rw [resolve]
  split
  · rename_i placeholder address codeAddress chainAddress
    rcases address?_eq_some_iff.mp codeAddress with ⟨codePushes, rfl⟩
    rcases address?_eq_some_iff.mp chainAddress with ⟨chainPushes, rfl⟩
    split
    · rename_i fills
      exact .filled ⟨codePushes, fills.1⟩ chainPushes fills.2
    · rename_i keeps
      apply Step.kept
      intro awaits _
      exact Decidable.byContradiction fun differs => keeps ⟨awaits.2, differs⟩
  · rename_i noAddress
    apply Step.kept
    intro awaits pushes
    exact absurd (address?_eq_some_iff.mpr ⟨pushes, rfl⟩)
      (noAddress _ _ (address?_eq_some_iff.mpr ⟨awaits.1, rfl⟩))

theorem Step.length {onChain : Bytes} {populated next : PopulatedCode}
    (step : Step onChain populated next) : next.code.length = populated.code.length := by
  cases step with
  | filled awaits pushes differs =>
      exact PopulatedCode.length_fill_code_of_within pushes.2 awaits.1.2
  | kept same => rfl

end CallProtection

/-! ## Immutables -/

namespace Immutable

variable {style : Auxdata.Style} {onChain : Bytes} {populated next : PopulatedCode}
  {target : Target}

def insertion (target : Target) : Filling :=
  ⟨target.reference.span, .insertImmutable target.id⟩

def replacement (target : Target) : Filling :=
  ⟨target.reference.span, .replaceImmutable target.id⟩

inductive Step (style : Auxdata.Style) (onChain : Bytes) (populated : PopulatedCode)
    (target : Target) :
    PopulatedCode → Prop
  | missing (absent : ¬ target.reference.span.Within onChain.length) :
      Step style onChain populated target populated
  | appended (present : target.reference.span.Within onChain.length)
      (atEnd : appends style populated.code target.reference.span = true) :
      Step style onChain populated target (populated.fill onChain (insertion target))
  | kept (present : target.reference.span.Within onChain.length)
      (notAtEnd : appends style populated.code target.reference.span = false)
      (inside : target.reference.span.Within populated.code.length)
      (same : populated.code.slice target.reference.span =
        onChain.slice target.reference.span) :
      Step style onChain populated target populated
  | replaced (present : target.reference.span.Within onChain.length)
      (notAtEnd : appends style populated.code target.reference.span = false)
      (inside : target.reference.span.Within populated.code.length)
      (differs : populated.code.slice target.reference.span ≠
        onChain.slice target.reference.span) :
      Step style onChain populated target (populated.fill onChain (replacement target))

theorem appends_eq_true_iff {code : Bytes} {span : Span} :
    appends style code span = true ↔ style ≠ .solidity ∧ span.start = code.length := by
  simp [appends]

theorem not_appends_of_within {code : Bytes} {span : Span} (filled : 0 < span.length)
    (inside : span.Within code.length) : appends style code span = false := by
  rw [← Bool.not_eq_true]
  intro atEnd
  rw [Span.Within, Span.stop, (appends_eq_true_iff.mp atEnd).2] at inside
  omega

theorem fill_insertion
    (atEnd : appends style populated.code target.reference.span = true) :
    populated.fill onChain (insertion target) =
      (populated.append (onChain.slice target.reference.span)
        |>.log (.insertImmutable target.reference.span.start target.id)
        |>.record (·.addImmutable target.id (onChain.slice target.reference.span))) := by
  have code : (populated.fill onChain (insertion target)).code =
      populated.code ++ onChain.slice target.reference.span :=
    PopulatedCode.fill_code_of_start_eq_length (appends_eq_true_iff.mp atEnd).2
  simp only [PopulatedCode.append, PopulatedCode.log, PopulatedCode.record, ← code]
  rfl

theorem resolveTarget_of_absent (absent : ¬ target.reference.span.Within onChain.length) :
    resolveTarget style onChain populated target = .ok populated := by
  simp only [resolveTarget, Bytes.slice?_eq_none_iff.mpr absent]

theorem resolveTarget_of_appends (present : target.reference.span.Within onChain.length)
    (atEnd : appends style populated.code target.reference.span = true) :
    resolveTarget style onChain populated target =
      .ok (populated.fill onChain (insertion target)) := by
  rw [fill_insertion atEnd]
  simp only [resolveTarget, Bytes.slice?_eq_some_iff.mpr ⟨present, rfl⟩, atEnd, if_true]

theorem resolveTarget_of_not_appends
    (present : target.reference.span.Within onChain.length)
    (notAtEnd : appends style populated.code target.reference.span = false) :
    resolveTarget style onChain populated target = do
      target.reference.span.checkedWithin .immutable target.id populated.code.length
      if populated.code.slice target.reference.span =
        onChain.slice target.reference.span then
        return populated
      else return populated.fill onChain (replacement target) := by
  simp only [resolveTarget, Bytes.slice?_eq_some_iff.mpr ⟨present, rfl⟩, notAtEnd]
  rfl

theorem resolveTarget_eq_ok_iff :
    resolveTarget style onChain populated target = .ok next ↔
      Step style onChain populated target next := by
  constructor
  · intro resolved
    by_cases present : target.reference.span.Within onChain.length
    · cases atEnd : appends style populated.code target.reference.span with
      | true =>
          rw [resolveTarget_of_appends present atEnd] at resolved
          cases resolved
          exact .appended present atEnd
      | false =>
          rw [resolveTarget_of_not_appends present atEnd] at resolved
          rcases Run.bind_eq_ok_iff.mp resolved with ⟨_, checked, resolved⟩
          have inside := Span.checkedWithin_eq_ok_iff.mp checked
          split at resolved
          · rename_i same
            cases resolved
            exact .kept present atEnd inside same
          · rename_i differs
            cases resolved
            exact .replaced present atEnd inside differs
    · rw [resolveTarget_of_absent present] at resolved
      cases resolved
      exact .missing present
  · intro step
    cases step with
    | missing absent => exact resolveTarget_of_absent absent
    | appended present atEnd => exact resolveTarget_of_appends present atEnd
    | kept present notAtEnd inside same =>
        rw [resolveTarget_of_not_appends present notAtEnd,
          Span.checkedWithin_eq_ok_iff.mpr inside, if_pos same]
        rfl
    | replaced present notAtEnd inside differs =>
        rw [resolveTarget_of_not_appends present notAtEnd,
          Span.checkedWithin_eq_ok_iff.mpr inside, if_neg differs]
        rfl

/-- Without an immutable behind the code its length stays the same. -/
theorem Step.length_of_solidity (step : Step .solidity onChain populated target next) :
    next.code.length = populated.code.length := by
  cases step with
  | missing absent => rfl
  | appended present atEnd => exact absurd rfl (appends_eq_true_iff.mp atEnd).1
  | kept present notAtEnd inside same => rfl
  | replaced present notAtEnd inside differs =>
      exact PopulatedCode.length_fill_code_of_within present inside

/-- The compiler lists the reference for the immutable. -/
def Lists (references : ImmutableReferences) (id : String)
    (reference : Reference) : Prop :=
  ∃ listed, (id, listed) ∈ references.entries ∧ reference ∈ listed

theorem mem_targets_iff {references : ImmutableReferences} :
    target ∈ targets references ↔ Lists references target.id target.reference := by
  simp only [targets, List.mem_flatMap, List.mem_map]
  constructor
  · rintro ⟨⟨id, listed⟩, entry, reference, member, rfl⟩
    exact ⟨listed, entry, member⟩
  · rintro ⟨listed, entry, member⟩
    exact ⟨(target.id, listed), entry, target.reference, member, rfl⟩

theorem mem_orderedTargets_iff {references : ImmutableReferences} :
    target ∈ orderedTargets references ↔ Lists references target.id target.reference := by
  rw [orderedTargets, List.mem_mergeSort]
  exact mem_targets_iff

/-- What the steps at all listed references keep, the resolver keeps. -/
theorem resolve_preserves (Holds : PopulatedCode → Prop)
    {references : ImmutableReferences}
    (keeps : ∀ state target after, Lists references target.id target.reference →
      Holds state →
      Step style onChain state target after → Holds after)
    (resolved : resolve style onChain references populated = .ok next)
    (holds : Holds populated) :
    Holds next := by
  apply Run.preserves Holds _ resolved holds
  intro state target after member before stepped
  exact keeps state target after (mem_orderedTargets_iff.mp member) before
    (resolveTarget_eq_ok_iff.mp stepped)

end Immutable

/-! ## Libraries -/

namespace Library

variable {placeholders : List Placeholder} {onChain : Bytes}
  {populated next : PopulatedCode}
  {target : Target}

def linking (target : Target) : Filling := ⟨target.reference.span, .library target.name⟩

/-- What is to be done at a reference, given the code and the code on chain. -/
def decision (placeholders : List Placeholder) (onChain : Bytes)
    (populated : PopulatedCode)
    (target : Target) : Decision :=
  decisionFor placeholders target (populated.code.slice target.reference.span)
    (onChain.slice target.reference.span)

theorem decision_eq_keep_iff :
    decision placeholders onChain populated target = .keep ↔
      CompiledCode.placeholderAt? placeholders target.reference.span.start = none ∧
        populated.code.slice target.reference.span =
          onChain.slice target.reference.span := by
  rw [decision, decisionFor]
  cases found : CompiledCode.placeholderAt? placeholders target.reference.span.start with
  | some placeholder =>
      simp only [reduceCtorEq, false_and, iff_false]
      split <;> simp
  | none =>
      simp only [true_and]
      split
      · rename_i same
        simp [same]
      · rename_i differs
        split <;> simp [differs]

theorem decision_eq_link_of_placeholder {placeholder : Placeholder}
    (found : CompiledCode.placeholderAt? placeholders target.reference.span.start =
      some placeholder)
    (own : isPlaceholderOf placeholder.text target.name = true) :
    decision placeholders onChain populated target = .link := by
  simp [decision, decisionFor, found, own]

theorem decision_eq_link_of_allZero
    (unmarked :
      CompiledCode.placeholderAt? placeholders target.reference.span.start = none)
    (differs : populated.code.slice target.reference.span ≠
      onChain.slice target.reference.span)
    (zero : (populated.code.slice target.reference.span).allZero = true) :
    decision placeholders onChain populated target = .link := by
  simp [decision, decisionFor, unmarked, differs, zero]

/-- Without a placeholder an address goes only where there are zero bytes. -/
theorem allZero_of_decision_eq_link
    (links : decision placeholders onChain populated target = .link)
    (unmarked :
      CompiledCode.placeholderAt? placeholders target.reference.span.start = none) :
    (populated.code.slice target.reference.span).allZero = true := by
  simp only [decision, decisionFor, unmarked] at links
  split at links
  · cases links
  · split at links
    · rename_i zero
      exact zero
    · cases links

inductive Step (placeholders : List Placeholder) (onChain : Bytes)
    (populated : PopulatedCode)
    (target : Target) : PopulatedCode → Prop
  | missing (inside : target.reference.span.Within populated.code.length)
      (absent : ¬ target.reference.span.Within onChain.length) :
      Step placeholders onChain populated target populated
  | kept (inside : target.reference.span.Within populated.code.length)
      (present : target.reference.span.Within onChain.length)
      (keeps : decision placeholders onChain populated target = .keep) :
      Step placeholders onChain populated target populated
  | linked (inside : target.reference.span.Within populated.code.length)
      (present : target.reference.span.Within onChain.length)
      (links : decision placeholders onChain populated target = .link) :
      Step placeholders onChain populated target (populated.fill onChain (linking target))

theorem resolveTarget_of_absent
    (inside : target.reference.span.Within populated.code.length)
    (absent : ¬ target.reference.span.Within onChain.length) :
    resolveTarget placeholders onChain populated target = .ok populated := by
  simp only [resolveTarget, Span.checkedWithin_eq_ok_iff.mpr inside,
    Bytes.slice?_eq_none_iff.mpr absent]
  rfl

theorem resolveTarget_of_present
    (inside : target.reference.span.Within populated.code.length)
    (present : target.reference.span.Within onChain.length) :
    resolveTarget placeholders onChain populated target =
      match decision placeholders onChain populated target with
      | .keep => .ok populated
      | .link => .ok (populated.fill onChain (linking target))
      | .refuse placeholder => .error (.invalidLibraryPlaceholder target.name
          target.reference.span.start placeholder) := by
  simp only [resolveTarget, Span.checkedWithin_eq_ok_iff.mpr inside,
    Bytes.slice?_eq_some_iff.mpr ⟨present, rfl⟩]
  rfl

theorem resolveTarget_eq_ok_iff :
    resolveTarget placeholders onChain populated target = .ok next ↔
      Step placeholders onChain populated target next := by
  constructor
  · intro resolved
    have inside : target.reference.span.Within populated.code.length := by
      rw [resolveTarget] at resolved
      rcases Run.bind_eq_ok_iff.mp resolved with ⟨_, checked, _⟩
      exact Span.checkedWithin_eq_ok_iff.mp checked
    by_cases present : target.reference.span.Within onChain.length
    · rw [resolveTarget_of_present inside present] at resolved
      cases decided : decision placeholders onChain populated target with
      | keep =>
          simp only [decided] at resolved
          cases resolved
          exact .kept inside present decided
      | link =>
          simp only [decided] at resolved
          cases resolved
          exact .linked inside present decided
      | refuse placeholder =>
          simp only [decided] at resolved
          cases resolved
    · rw [resolveTarget_of_absent inside present] at resolved
      cases resolved
      exact .missing inside present
  · intro step
    cases step with
    | missing inside absent => exact resolveTarget_of_absent inside absent
    | kept inside present keeps => rw [resolveTarget_of_present inside present, keeps]
    | linked inside present links => rw [resolveTarget_of_present inside present, links]

theorem Step.length (step : Step placeholders onChain populated target next) :
    next.code.length = populated.code.length := by
  cases step with
  | missing inside absent => rfl
  | kept inside present keeps => rfl
  | linked inside present links =>
      exact PopulatedCode.length_fill_code_of_within present inside

/-- The compiler lists the reference for the library of that full name. -/
def Lists (references : LinkReferences) (name : String) (reference : Reference) : Prop :=
  ∃ file libraries library listed, (file, libraries) ∈ references.entries ∧
    (library, listed) ∈ libraries.entries ∧ reference ∈ listed ∧
    name = fullName file library

theorem mem_targets_iff {references : LinkReferences} :
    target ∈ targets references ↔ Lists references target.name target.reference := by
  simp only [targets, List.mem_flatMap, List.mem_map]
  constructor
  · rintro ⟨⟨file, libraries⟩, inFile, ⟨library, listed⟩, inLibrary, reference,
      member, rfl⟩
    exact ⟨file, libraries, library, listed, inFile, inLibrary, member, rfl⟩
  · rintro ⟨file, libraries, library, listed, inFile, inLibrary, member, name⟩
    refine ⟨(file, libraries), inFile, (library, listed), inLibrary,
      target.reference, member, ?_⟩
    rw [← name]

/-- What the steps at all listed references keep, the resolver keeps. -/
theorem resolve_preserves (Holds : PopulatedCode → Prop) {references : LinkReferences}
    (keeps : ∀ state target after, Lists references target.name target.reference →
      Holds state →
      Step placeholders onChain state target after → Holds after)
    (resolved : resolve placeholders onChain references populated = .ok next)
    (holds : Holds populated) : Holds next := by
  apply Run.preserves Holds _ resolved holds
  intro state target after member before stepped
  exact keeps state target after (mem_targets_iff.mp member) before
    (resolveTarget_eq_ok_iff.mp stepped)

end Library

end ContractCode
