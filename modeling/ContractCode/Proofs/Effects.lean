import ContractCode.Proofs.LinkedCode

/-! # Effects

What a resolver does at one place depends on the code alone, and it is one of three
things. An `Effect` says which one, before it is done: the code is kept, one span is
filled, or the resolver fails. For every place there is an area outside of which nothing
is filled, and what is to be done is seen within it. Two tests look beyond the area. A
reference has to lie within the code, and an immutable may start where the code ends; so
the length matters to immutables, and to libraries only until it suffices.
-/

namespace ContractCode

inductive Effect where
  | keep
  | fill (filling : Filling)
  | fail (failure : MatchError)
deriving DecidableEq

def Effect.apply (onChain : Bytes) (populated : PopulatedCode) :
    Effect → Except MatchError PopulatedCode
  | .keep => .ok populated
  | .fill filling => .ok (populated.fill onChain filling)
  | .fail failure => .error failure

namespace CallProtection

def effect (onChain code : Bytes) : Effect :=
  if Awaits code ∧ Pushes onChain ∧
  code.slice addressSpan ≠ onChain.slice addressSpan then .fill filling
  else .keep

theorem resolve_eq_apply (onChain : Bytes) (populated : PopulatedCode) :
    .ok (resolve onChain populated) =
      (effect onChain populated.code).apply onChain populated := by
  have step := step_resolve onChain populated
  generalize resolve onChain populated = next at step ⊢
  rw [effect]
  cases step with
  | filled awaits pushes differs =>
      rw [if_pos ⟨awaits, pushes, differs⟩]
      rfl
  | kept same =>
      rw [if_neg fun fills => fills.2.2 (same fills.1 fills.2.1)]
      rfl

variable {onChain code other : Bytes}

section SameStart

variable (same : ∀ index, Matching.protectionSpan.Covers index →
  code[index]? = other[index]?)

include same

theorem slice_addressSpan_congr : code.slice addressSpan = other.slice addressSpan :=
  Bytes.slice_congr fun index covers => same index ⟨Nat.zero_le _, covers.2⟩

/-- Whether the code awaits an address is seen in its first bytes. -/
theorem awaits_congr : Awaits code ↔ Awaits other := by
  have first : code.head? = other.head? := by
    rw [List.head?_eq_getElem?, List.head?_eq_getElem?]
    exact same 0 (by decide)
  have within : addressSpan.Within code.length ↔ addressSpan.Within other.length := by
    have last := same 20 (by decide)
    have ends : ∀ bytes : Bytes, addressSpan.Within bytes.length ↔ bytes[20]? ≠ none := by
      intro bytes
      rw [ne_eq, List.getElem?_eq_none_iff, Nat.not_le]
      rfl
    rw [ends, ends, last]
  rw [Awaits, Awaits, Pushes, Pushes, first, within, slice_addressSpan_congr same]

theorem effect_congr : effect onChain code = effect onChain other := by
  simp only [effect, awaits_congr same, slice_addressSpan_congr same]

end SameStart

theorem effect_eq_fill {filled : Filling} (fills : effect onChain code = .fill filled) :
    filled = filling ∧ addressSpan.Within onChain.length ∧
    addressSpan.Within code.length := by
  rw [effect] at fills
  split at fills
  · rename_i holds
    cases fills
    exact ⟨rfl, holds.2.1.2, holds.1.1.2⟩
  · cases fills

end CallProtection

namespace Immutable

variable {style : Auxdata.Style} {onChain : Bytes} {populated : PopulatedCode}
  {target : Target}

def effect (style : Auxdata.Style) (onChain code : Bytes) (target : Target) : Effect :=
  let span := target.reference.span
  if span.Within onChain.length then
    if appends style code span then .fill (insertion target)
    else if span.Within code.length then
      if code.slice span = onChain.slice span then .keep else .fill (replacement target)
    else .fail (.referenceOutOfBounds .immutable target.id span code.length)
  else .keep

theorem resolveTarget_eq_apply :
    resolveTarget style onChain populated target =
      (effect style onChain populated.code target).apply onChain populated := by
  rw [effect]
  split
  · rename_i present
    split
    · rename_i atEnd
      exact resolveTarget_of_appends present atEnd
    · rename_i notAtEnd
      rw [resolveTarget_of_not_appends present (Bool.not_eq_true _ ▸ notAtEnd),
        Span.checkedWithin]
      split
      · split
        · rfl
        · rfl
      · rfl
  · rename_i absent
    exact resolveTarget_of_absent absent

theorem effect_congr {code other : Bytes} (length : code.length = other.length)
    (same : ∀ index, target.reference.span.Covers index → code[index]? = other[index]?) :
    effect style onChain code target = effect style onChain other target := by
  rw [effect, effect, appends, appends, length, Bytes.slice_congr same]

theorem effect_eq_fill {code : Bytes} {filled : Filling}
    (fills : effect style onChain code target = .fill filled) :
    (filled = insertion target ∨ filled = replacement target) ∧
      target.reference.span.Within onChain.length ∧
      target.reference.span.start ≤ code.length := by
  rw [effect] at fills
  split at fills
  · rename_i present
    split at fills
    · rename_i atEnd
      cases fills
      exact ⟨.inl rfl, present, Nat.le_of_eq (appends_eq_true_iff.mp atEnd).2⟩
    · split at fills
      · rename_i inside
        split at fills
        · cases fills
        · cases fills
          exact ⟨.inr rfl, present, inside.start_le⟩
      · cases fills
  · cases fills

end Immutable

namespace Library

variable {placeholders : List Placeholder} {onChain : Bytes} {populated : PopulatedCode}
  {target : Target}

def effect (placeholders : List Placeholder) (onChain code : Bytes)
    (target : Target) : Effect :=
  let span := target.reference.span
  if span.Within code.length then
    if span.Within onChain.length then
      match decisionFor placeholders target (code.slice span) (onChain.slice span) with
      | .keep => .keep
      | .link => .fill (linking target)
      | .refuse placeholder =>
        .fail (.invalidLibraryPlaceholder target.name span.start placeholder)
    else .keep
  else .fail (.referenceOutOfBounds .library target.name span code.length)

theorem resolveTarget_eq_apply :
    resolveTarget placeholders onChain populated target =
      (effect placeholders onChain populated.code target).apply onChain populated := by
  rw [effect]
  split
  · rename_i inside
    split
    · rename_i present
      rw [resolveTarget_of_present inside present, decision]
      cases decisionFor placeholders target (populated.code.slice target.reference.span)
        (onChain.slice target.reference.span) with
      | keep => rfl
      | link => rfl
      | refuse placeholder => rfl
    · rename_i absent
      exact resolveTarget_of_absent inside absent
  · rename_i outside
    have refused :
        target.reference.span.checkedWithin .library target.name populated.code.length =
        .error (.referenceOutOfBounds .library target.name target.reference.span
          populated.code.length) := if_neg outside
    rw [resolveTarget, refused]
    rfl

theorem effect_congr {code other : Bytes}
    (inside : target.reference.span.Within code.length)
    (otherInside : target.reference.span.Within other.length)
    (same : ∀ index, target.reference.span.Covers index → code[index]? = other[index]?) :
    effect placeholders onChain code target =
      effect placeholders onChain other target := by
  rw [effect, effect, if_pos inside, if_pos otherInside, Bytes.slice_congr same]

theorem effect_eq_fill {code : Bytes} {filled : Filling}
    (fills : effect placeholders onChain code target = .fill filled) :
    filled = linking target ∧ target.reference.span.Within onChain.length ∧
      target.reference.span.Within code.length := by
  rw [effect] at fills
  split at fills
  · rename_i inside
    split at fills
    · rename_i present
      split at fills
      · cases fills
      · cases fills
        exact ⟨rfl, present, inside⟩
      · cases fills
    · cases fills
  · cases fills

end Library

end ContractCode
