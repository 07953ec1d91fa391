import ContractCode.Version.Text
import Mathlib.Order.Defs.LinearOrder

/-! # The order of versions

Versions are compared part by part, and each part is in a linear order, so versions are
too. Among versions without build metadata this is the precedence of semantic versions:
the numbers decide, then the pre-release, which comes before the release itself.
-/

namespace ContractCode

namespace Identifier

/-! ## Identifiers -/

def isWord : Identifier → Bool
  | .numeric _ _ => false
  | .word _ => true

def value : Identifier → Nat
  | .numeric value _ => value
  | .word _ => 0

def leadingZeros : Identifier → Nat
  | .numeric _ zeros => zeros
  | .word _ => 0

def text : Identifier → String
  | .numeric _ _ => ""
  | .word text => text

/-- Identifiers are compared part by part; a number has no text, and a word no value. -/
theorem compare_eq_compareLex :
    compare = compareLex (compareOn isWord)
      (compareLex (compareOn value)
        (compareLex (compareOn leadingZeros) (compareOn text))) := by
  funext left right
  cases left with
  | numeric value zeros =>
      cases right with
      | numeric value' zeros' =>
          change _ = (Ord.compare value value').then ((Ord.compare zeros zeros').then .eq)
          rw [Ordering.then_eq]
          rfl
      | word text => rfl
  | word text =>
      cases right with
      | numeric value zeros => rfl
      | word text' => rfl

instance : Ord Identifier := ⟨compare⟩

instance : Std.TransOrd Identifier := by
  change Std.TransCmp compare
  rw [compare_eq_compareLex]
  infer_instance

instance : Std.LawfulEqOrd Identifier where
  eq_of_compare := by
    intro left right same
    cases left with
    | numeric value zeros =>
        cases right with
        | numeric value' zeros' =>
            rcases Ordering.then_eq_eq.mp same with ⟨sameValue, sameZeros⟩
            rw [Nat.compare_eq_eq.mp sameValue, Nat.compare_eq_eq.mp sameZeros]
        | word text => cases same
    | word text =>
        cases right with
        | numeric value zeros => cases same
        | word text' => exact congrArg word (Std.LawfulEqOrd.eq_of_compare same)

theorem compareAll_eq_compare (lefts rights : List Identifier) :
    compareAll lefts rights = Ord.compare lefts rights := by
  induction lefts generalizing rights with
  | nil =>
      cases rights with
      | nil => rfl
      | cons right rights => rfl
  | cons left lefts induction =>
      cases rights with
      | nil => rfl
      | cons right rights =>
          rw [compareAll, induction, List.compare_cons_cons]
          rfl

end Identifier

namespace Version

/-! ## Versions -/

theorem comparePreRelease_eq_then (lefts rights : List Identifier) :
    comparePreRelease lefts rights =
      (Ord.compare lefts.isEmpty rights.isEmpty).then (Ord.compare lefts rights) := by
  cases lefts with
  | nil =>
      cases rights with
      | nil => rfl
      | cons right rights => rfl
  | cons left lefts =>
      cases rights with
      | nil => rfl
      | cons right rights => exact Identifier.compareAll_eq_compare _ _

/-- Versions are compared part by part; whether there is a pre-release is a part of its
own. -/
theorem compare_eq_compareLex :
    compare = compareLex (compareOn major)
      (compareLex (compareOn minor) (compareLex (compareOn patch)
      (compareLex (compareOn fun version => version.preRelease.isEmpty)
        (compareLex (compareOn preRelease) (compareOn build))))) := by
  funext left right
  rw [compare, comparePreRelease_eq_then, Identifier.compareAll_eq_compare,
    Ordering.then_assoc]
  rfl

instance : Std.TransCmp compare := by
  rw [compare_eq_compareLex]
  infer_instance

instance : Std.LawfulEqCmp compare where
  eq_of_compare := by
    intro left right same
    rw [compare_eq_compareLex] at same
    simp only [compareLex_eq_eq, compareOn, Std.LawfulEqOrd.compare_eq_iff_eq] at same
    rcases same with ⟨major, minor, patch, _, preRelease, build⟩
    cases left
    cases right
    congr

theorem compare_swap (left right : Version) :
    compare right left = (compare left right).swap :=
  Std.OrientedCmp.eq_swap

instance : LE Version := ⟨fun left right => (compare left right).isLE = true⟩

theorem lt_iff_compare {left right : Version} :
    left < right ↔ compare left right = .lt := Iff.rfl

instance : LinearOrder Version where
  le_refl version := Std.ReflCmp.isLE_rfl
  le_trans first second third := Std.TransCmp.isLE_trans
  lt_iff_le_not_ge left right := by
    change left < right ↔ (compare left right).isLE = true ∧
      ¬ (compare right left).isLE = true
    rw [lt_iff_compare, compare_swap left right]
    cases compare left right <;> decide
  le_antisymm left right before after :=
    Std.LawfulEqCmp.eq_of_compare (Std.OrientedCmp.isLE_antisymm before after)
  le_total left right := by
    change (compare left right).isLE = true ∨ (compare right left).isLE = true
    rw [compare_swap left right]
    cases compare left right <;> decide
  toDecidableLE left right := inferInstanceAs (Decidable (_ = true))
  toDecidableLT := inferInstance
  toDecidableEq := inferInstance
  compare := compare
  compare_eq_compareOfLessAndEq left right := by
    have same : compare left right = .eq ↔ left = right :=
      Std.LawfulEqCmp.compare_eq_iff_eq
    simp only [compareOfLessAndEq, lt_iff_compare, ← same]
    cases compare left right <;> rfl

/-- Build metadata counts last, and a version without any comes first. -/
theorem withoutBuild_lt_iff {version : Version} :
    version.withoutBuild < version ↔ version.build ≠ [] := by
  simp only [lt_iff_compare, compare, withoutBuild, comparePreRelease_eq_then,
    Std.ReflCmp.compare_self, Ordering.eq_then]
  cases version.build with
  | nil => exact iff_of_false nofun fun filled => filled rfl
  | cons first others => exact iff_of_true rfl nofun

end Version

/-! ## Precedence -/

namespace Identifier

variable {left right : Identifier} {lefts rights : List Identifier}

/-- Numbers go by their value and words by their characters; numbers come first. -/
inductive Precedes : Identifier → Identifier → Prop
  | number {value zeros value' zeros' : Nat} (less : value < value') :
      Precedes (.numeric value zeros) (.numeric value' zeros')
  | kind {value zeros : Nat} {text : String} :
      Precedes (.numeric value zeros) (.word text)
  | word {text text' : String} (less : text < text') : Precedes (.word text) (.word text')

/-- A number has no zeros in front of it, where nought itself is a zero. -/
def IsPlain : Identifier → Prop
  | .numeric value zeros => zeros = if value = 0 then 1 else 0
  | .word _ => True

theorem precedes_iff_compare (isPlain : left.IsPlain) (isPlainRight : right.IsPlain) :
    left.Precedes right ↔ compare left right = .lt := by
  cases left with
  | numeric value zeros =>
      cases right with
      | numeric value' zeros' =>
          rw [compare, Ordering.then_eq_lt, Nat.compare_eq_lt, Nat.compare_eq_eq,
            Nat.compare_eq_lt]
          constructor
          · rintro ⟨less⟩
            exact .inl less
          · rintro (less | ⟨rfl, less⟩)
            · exact .number less
            · cases isPlain
              cases isPlainRight
              exact absurd less (Nat.lt_irrefl _)
      | word text => exact iff_of_true .kind rfl
  | word text =>
      cases right with
      | numeric value zeros => exact iff_of_false nofun nofun
      | word text' =>
          rw [compare, compareOfLessAndEq_eq_lt]
          constructor
          · intro precedes
            cases precedes with
            | word less => exact less
          · exact .word

/-- Lists are in the order of their first difference; a list comes before its
continuations. -/
theorem lex_precedes_iff_compareAll (isPlain : ∀ identifier ∈ lefts, identifier.IsPlain)
    (isPlainRight : ∀ identifier ∈ rights, identifier.IsPlain) :
    lefts.Lex Precedes rights ↔ compareAll lefts rights = .lt := by
  induction lefts generalizing rights with
  | nil =>
      cases rights with
      | nil => exact iff_of_false nofun nofun
      | cons right rights => exact iff_of_true .nil rfl
  | cons left lefts induction =>
      cases rights with
      | nil => exact iff_of_false nofun nofun
      | cons right rights =>
          rcases List.forall_mem_cons.mp isPlain with ⟨first, others⟩
          rcases List.forall_mem_cons.mp isPlainRight with ⟨firstRight, othersRight⟩
          have same : compare left right = .eq ↔ left = right :=
            @Std.compare_eq_iff_eq Identifier _ _ left right
          rw [List.cons_lex_cons_iff, compareAll, Ordering.then_eq_lt, same,
            precedes_iff_compare first firstRight, induction others othersRight]

end Identifier

namespace Version

variable {left right : Version} {lefts rights : List Identifier}

/-- A pre-release comes before the release, and pre-releases go by their identifiers. -/
inductive PreReleasePrecedes : List Identifier → List Identifier → Prop
  | release {first : Identifier} {others : List Identifier} :
      PreReleasePrecedes (first :: others) []
  | identifiers {first : Identifier} {others rights : List Identifier}
      (less : (first :: others).Lex Identifier.Precedes rights) :
      PreReleasePrecedes (first :: others) rights

/-- The precedence of versions: the first of the numbers that differs decides, then the
pre-release. Build metadata has no part in it. -/
inductive Precedes (left right : Version) : Prop
  | major (less : left.major < right.major)
  | minor (major : left.major = right.major) (less : left.minor < right.minor)
  | patch (major : left.major = right.major) (minor : left.minor = right.minor)
      (less : left.patch < right.patch)
  | preRelease (major : left.major = right.major) (minor : left.minor = right.minor)
      (patch : left.patch = right.patch)
      (less : PreReleasePrecedes left.preRelease right.preRelease)

theorem preReleasePrecedes_iff_compare
    (isPlain : ∀ identifier ∈ lefts, identifier.IsPlain)
    (isPlainRight : ∀ identifier ∈ rights, identifier.IsPlain) :
    PreReleasePrecedes lefts rights ↔ comparePreRelease lefts rights = .lt := by
  cases lefts with
  | nil =>
      cases rights with
      | nil => exact iff_of_false nofun nofun
      | cons right rights => exact iff_of_false nofun nofun
  | cons left lefts =>
      cases rights with
      | nil => exact iff_of_true .release rfl
      | cons right rights =>
          refine Iff.trans ?_
            (Identifier.lex_precedes_iff_compareAll isPlain isPlainRight)
          constructor
          · intro precedes
            cases precedes with
            | identifiers less => exact less
          · exact .identifiers

/-- Versions that are compared without their build metadata are in the order of
precedence. -/
theorem precedes_iff_lt (isPlain : ∀ identifier ∈ left.preRelease, identifier.IsPlain)
    (isPlainRight : ∀ identifier ∈ right.preRelease, identifier.IsPlain) :
    left.Precedes right ↔ left.withoutBuild < right.withoutBuild := by
  have noBuild : Identifier.compareAll [] [] ≠ .lt := nofun
  simp only [lt_iff_compare, compare, withoutBuild, Ordering.then_eq_lt,
    Nat.compare_eq_lt, Nat.compare_eq_eq, noBuild, and_false, or_false,
    ← preReleasePrecedes_iff_compare isPlain isPlainRight]
  constructor
  · rintro (less | ⟨major, less⟩ | ⟨major, minor, less⟩ | ⟨major, minor, patch, less⟩)
    · exact .inl less
    · exact .inr ⟨major, .inl less⟩
    · exact .inr ⟨major, .inr ⟨minor, .inl less⟩⟩
    · exact .inr ⟨major, .inr ⟨minor, .inr ⟨patch, less⟩⟩⟩
  · rintro (less | ⟨major, less | ⟨minor, less | ⟨patch, less⟩⟩⟩)
    · exact .major less
    · exact .minor major less
    · exact .patch major minor less
    · exact .preRelease major minor patch less

end Version

end ContractCode
