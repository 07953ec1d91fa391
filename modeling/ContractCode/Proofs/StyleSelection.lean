import ContractCode.Proofs.VersionText
import ContractCode.Settings

/-! # The style of a Vyper compiler

A newer compiler never has an older style, since the style follows from where its
version is among two thresholds. The version is taken without its build metadata, but a
threshold is taken as it is: one with build metadata comes after the version of the
compiler that it names.
-/

namespace ContractCode.Auxdata.Style

variable {text other : String} {version otherVersion : Version}
  {thresholds : VyperThresholds}

/-- The text without the `v` in front of it, of which there may be any number. -/
def withoutMarks (text : String) : List Char := text.toList.dropWhile (· == 'v')

/-- The version in the text of a compiler. -/
def namedVersion? (text : String) : Option Version :=
  Version.ofCharacters? (withoutMarks text)

/-- The layouts of Vyper metadata, one after the other. -/
inductive IsOlder : Style → Style → Prop
  | suffix : IsOlder .vyperBefore035 .vyperBefore0310
  | selfInclusive : IsOlder .vyperBefore0310 .vyper
  | both : IsOlder .vyperBefore035 .vyper

/-! ## Thresholds -/

theorem forCompiler_of_namedVersion? (named : namedVersion? text = some version) :
    forCompiler .vyper text thresholds =
      if version.withoutBuild < thresholds.lengthSuffixSince then .vyperBefore035
      else if version.withoutBuild < thresholds.selfInclusiveLengthSince then
        .vyperBefore0310
      else .vyper := by
  have compiler : compilerVersion? text = some version.withoutBuild :=
    congrArg (Option.map _) named
  rw [forCompiler, compiler]

theorem forCompiler_eq_vyperBefore035_iff (named : namedVersion? text = some version) :
    forCompiler .vyper text thresholds = .vyperBefore035 ↔
      version.withoutBuild < thresholds.lengthSuffixSince := by
  rw [forCompiler_of_namedVersion? named]
  split
  · rename_i before
    exact iff_of_true rfl before
  · rename_i notBefore
    refine iff_of_false ?_ notBefore
    split <;> decide

theorem forCompiler_eq_vyperBefore0310_iff (named : namedVersion? text = some version) :
    forCompiler .vyper text thresholds = .vyperBefore0310 ↔
      thresholds.lengthSuffixSince ≤ version.withoutBuild ∧
        version.withoutBuild < thresholds.selfInclusiveLengthSince := by
  rw [forCompiler_of_namedVersion? named, ← not_lt]
  split
  · rename_i before
    exact iff_of_false nofun fun both => both.1 before
  · rename_i notBefore
    split
    · rename_i below
      exact iff_of_true rfl ⟨notBefore, below⟩
    · rename_i notBelow
      exact iff_of_false nofun fun both => notBelow both.2

/-- No threshold is above the version of a compiler with the newest style. -/
theorem forCompiler_eq_vyper_iff (named : namedVersion? text = some version) :
    forCompiler .vyper text thresholds = .vyper ↔
      thresholds.lengthSuffixSince ≤ version.withoutBuild ∧
        thresholds.selfInclusiveLengthSince ≤ version.withoutBuild := by
  rw [forCompiler_of_namedVersion? named, ← not_lt, ← not_lt]
  split
  · rename_i before
    exact iff_of_false nofun fun both => both.1 before
  · rename_i notBefore
    split
    · rename_i below
      exact iff_of_false nofun fun both => both.2 below
    · rename_i notBelow
      exact iff_of_true rfl ⟨notBefore, notBelow⟩

theorem not_isOlder_of_le (named : namedVersion? text = some version)
    (namedOther : namedVersion? other = some otherVersion)
    (le : version.withoutBuild ≤ otherVersion.withoutBuild) :
    ¬ IsOlder (forCompiler .vyper other thresholds)
      (forCompiler .vyper text thresholds) := by
  intro older
  generalize styleOfOther : forCompiler .vyper other thresholds = olderStyle at older
  generalize styleOfText : forCompiler .vyper text thresholds = newerStyle at older
  cases older with
  | suffix =>
      have below := (forCompiler_eq_vyperBefore035_iff namedOther).mp styleOfOther
      have above := ((forCompiler_eq_vyperBefore0310_iff named).mp styleOfText).1
      exact not_lt_of_ge (le_trans above le) below
  | selfInclusive =>
      have below := ((forCompiler_eq_vyperBefore0310_iff namedOther).mp styleOfOther).2
      have above := ((forCompiler_eq_vyper_iff named).mp styleOfText).2
      exact not_lt_of_ge (le_trans above le) below
  | both =>
      have below := (forCompiler_eq_vyperBefore035_iff namedOther).mp styleOfOther
      have above := ((forCompiler_eq_vyper_iff named).mp styleOfText).1
      exact not_lt_of_ge (le_trans above le) below

/-- The style of a version is not older than those of the versions that it does not
precede. -/
theorem not_isOlder_of_not_precedes (named : namedVersion? text = some version)
    (namedOther : namedVersion? other = some otherVersion)
    (notPrecedes : ¬ otherVersion.Precedes version) :
    ¬ IsOlder (forCompiler .vyper other thresholds)
      (forCompiler .vyper text thresholds) := by
  have isPlain := Version.isPlain_of_ofCharacters? named
  have isPlainOther := Version.isPlain_of_ofCharacters? namedOther
  apply not_isOlder_of_le named namedOther
  apply le_of_not_gt
  intro less
  exact notPrecedes ((Version.precedes_iff_lt isPlainOther isPlain).mpr less)

/-! ## What does not count -/

theorem withoutMarks_append (marks : Nat) (text : String) :
    withoutMarks (String.ofList (List.replicate marks 'v' ++ text.toList)) =
      withoutMarks text := by
  rw [withoutMarks, String.toList_ofList]
  apply List.dropWhile_append_of_pos
  intro character member
  exact beq_iff_eq.mpr (List.eq_of_mem_replicate member)

theorem forCompiler_append_marks (marks : Nat) (text : String) :
    forCompiler .vyper (String.ofList (List.replicate marks 'v' ++ text.toList))
      thresholds =
      forCompiler .vyper text thresholds := by
  have same : compilerVersion? (String.ofList (List.replicate marks 'v' ++ text.toList)) =
      compilerVersion? text :=
    congrArg (fun characters =>
      (Version.ofCharacters? characters).map Version.withoutBuild)
      (withoutMarks_append marks text)
  rw [forCompiler, same]
  rfl

/-- What follows the first `+` is no part of the version that is compared. -/
theorem forCompiler_congr (named : namedVersion? text = some version)
    (namedOther : namedVersion? other = some otherVersion)
    (same : (withoutMarks text).takeWhile (· ≠ '+') =
      (withoutMarks other).takeWhile (· ≠ '+')) :
    forCompiler .vyper text thresholds = forCompiler .vyper other thresholds := by
  rw [← Version.fst_cutAt, ← Version.fst_cutAt] at same
  rw [forCompiler_of_namedVersion? named, forCompiler_of_namedVersion? namedOther,
    Version.withoutBuild_eq_of_ofCharacters? same named namedOther]

/-! ## Versions and styles -/

/-- If the thresholds are in order, then each style belongs to the versions between two
of them. A version that does not come after another one in precedence has no newer
style. Any number of `v` in front of the text and all that follows its first `+` make no
difference. -/
theorem style_by_precedence (thresholds : VyperThresholds) :
    (thresholds.Ordered → ∀ text version, namedVersion? text = some version →
      (forCompiler .vyper text thresholds = .vyperBefore035 ↔
        version.withoutBuild < thresholds.lengthSuffixSince) ∧
      (forCompiler .vyper text thresholds = .vyperBefore0310 ↔
        thresholds.lengthSuffixSince ≤ version.withoutBuild ∧
          version.withoutBuild < thresholds.selfInclusiveLengthSince) ∧
      (forCompiler .vyper text thresholds = .vyper ↔
        thresholds.selfInclusiveLengthSince ≤ version.withoutBuild)) ∧
    (∀ text other version otherVersion, namedVersion? text = some version →
      namedVersion? other = some otherVersion → ¬ otherVersion.Precedes version →
      ¬ IsOlder (forCompiler .vyper other thresholds)
        (forCompiler .vyper text thresholds)) ∧
    (∀ marks text,
      forCompiler .vyper (String.ofList (List.replicate marks 'v' ++ text.toList))
        thresholds =
      forCompiler .vyper text thresholds) ∧
    (∀ text other version otherVersion, namedVersion? text = some version →
      namedVersion? other = some otherVersion →
      (withoutMarks text).takeWhile (· ≠ '+') = (withoutMarks other).takeWhile (· ≠ '+') →
      forCompiler .vyper text thresholds = forCompiler .vyper other thresholds) := by
  refine ⟨?_, ?_, ?_, ?_⟩
  · intro ordered text version named
    refine ⟨forCompiler_eq_vyperBefore035_iff named,
      forCompiler_eq_vyperBefore0310_iff named, ?_⟩
    rw [forCompiler_eq_vyper_iff named]
    exact and_iff_right_of_imp (le_trans (not_lt.mp ordered))
  · intro text other version otherVersion named namedOther notPrecedes
    exact not_isOlder_of_not_precedes named namedOther notPrecedes
  · exact forCompiler_append_marks
  · intro text other version otherVersion named namedOther same
    exact forCompiler_congr named namedOther same

/-! A pre-release at the later threshold, and its release. -/

def candidate : Version where
  major := 0
  minor := 3
  patch := 10
  preRelease := [.word "rc", .numeric 1 0]
  build := [.word "commit", .word "91361694a"]

theorem style_by_precedence_candidate :
    VyperThresholds.Ordered {} ∧
    namedVersion? "v0.3.10-rc.1+commit.91361694a" = some candidate ∧
      forCompiler .vyper "v0.3.10-rc.1+commit.91361694a" {} = .vyperBefore0310 ∧
      ¬ IsOlder (forCompiler .vyper "0.3.10" {})
        (forCompiler .vyper "v0.3.10-rc.1+commit.91361694a" {}) := by
  have ordered : VyperThresholds.Ordered {} := by decide
  have named : namedVersion? "v0.3.10-rc.1+commit.91361694a" = some candidate := by
    decide +kernel
  have release : namedVersion? "0.3.10" = some (.release 0 3 10) := by decide +kernel
  have selects := style_by_precedence {}
  have between := (selects.1 ordered _ _ named).2.1
  refine ⟨ordered, named, between.mpr ⟨by decide +kernel, by decide +kernel⟩, ?_⟩
  apply selects.2.1 _ _ _ _ named release
  rintro (less | ⟨_, less⟩ | ⟨_, _, less⟩ | ⟨_, _, _, less⟩)
  · exact absurd less (by decide)
  · exact absurd less (by decide)
  · exact absurd less (by decide)
  · cases less

/-! ## At a threshold -/

theorem namedVersion?_eq_parse? (parsed : Version.parse? text = some version) :
    namedVersion? text = some version := by
  rcases Version.exists_digit_of_ofCharacters? parsed with ⟨first, rest, starts, isDigit⟩
  have unmarked : ¬ (first == 'v') = true := by
    intro marked
    rw [beq_iff_eq.mp marked] at isDigit
    exact absurd isDigit (by decide)
  have kept : withoutMarks text = text.toList := by
    rw [withoutMarks, starts]
    exact List.dropWhile_cons_of_neg unmarked
  rw [namedVersion?, kept]
  exact parsed

/-- A compiler whose version is the one since which the length is there has a style with
a length, unless the version has build metadata, without which it comes before the
threshold. -/
theorem style_at_threshold (parsed : Version.parse? text = some version)
    (atThreshold : thresholds.lengthSuffixSince = version) :
    (forCompiler .vyper text thresholds = .vyperBefore035 ↔ version.build ≠ []) ∧
      (thresholds.selfInclusiveLengthSince = version →
        (forCompiler .vyper text thresholds = .vyper ↔ version.build = [])) := by
  have named := namedVersion?_eq_parse? parsed
  have below : version.withoutBuild < version ↔ version.build ≠ [] :=
    Version.withoutBuild_lt_iff
  constructor
  · rw [forCompiler_eq_vyperBefore035_iff named, atThreshold, below]
  · intro bothAtThreshold
    rw [forCompiler_eq_vyper_iff named, atThreshold, bothAtThreshold,
      and_self, ← not_lt, below, Decidable.not_not]

/-! A threshold with build metadata. -/

def commitText : String := "0.3.5+commit.1"

def commitVersion : Version :=
  { Version.release 0 3 5 with build := [.word "commit", .numeric 1 0] }

def commitThresholds : VyperThresholds := ⟨commitVersion, commitVersion⟩

theorem parse?_commitText :
    Version.parse? commitText = some commitVersion := by decide +kernel

theorem style_at_commitThresholds :
    Version.parse? commitText = some commitVersion ∧
      forCompiler .vyper commitText commitThresholds = .vyperBefore035 ∧
      forCompiler .vyper commitText commitThresholds ≠ .vyper := by
  have atThreshold : commitThresholds.lengthSuffixSince = commitVersion := rfl
  have selects := style_at_threshold parse?_commitText atThreshold
  refine ⟨parse?_commitText, selects.1.mpr nofun, ?_⟩
  intro newest
  exact absurd ((selects.2 rfl).mp newest) nofun

/-- A compiler at the threshold may have a style without a length. -/
theorem not_style_at_threshold :
    ¬ ∀ (text : String) (version : Version) (thresholds : VyperThresholds),
      Version.parse? text = some version → thresholds.lengthSuffixSince = version →
      forCompiler .vyper text thresholds ≠ .vyperBefore035 := by
  intro all
  exact absurd (all _ _ commitThresholds parse?_commitText rfl) (by decide +kernel)

end ContractCode.Auxdata.Style
