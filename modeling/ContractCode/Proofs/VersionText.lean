import ContractCode.Proofs.VersionOrder
import Mathlib.Data.List.Induction

/-! # What the text of a version tells

The text in front of the first `+` tells all of a version but its build metadata. The
text starts with a digit, and the numbers of its pre-release are written without zeros
in front. A version has one text only: whatever is read is written as it was.
-/

namespace ContractCode

namespace Character

theorem le_foldl_digits (number : Nat) (digits : List Char) :
    number ≤
      digits.foldl (fun number digit => number * 10 + (digit.toNat - 48)) number := by
  induction digits generalizing number with
  | nil => exact Nat.le_refl number
  | cons digit digits induction =>
      have step : number ≤ number * 10 + (digit.toNat - 48) := by omega
      exact Nat.le_trans step (induction _)

theorem numberOfDigits_pos {digit : Char} {digits : List Char}
    (isDigit : isDigit digit = true)
    (notZero : digit ≠ '0') : 0 < numberOfDigits (digit :: digits) := by
  have value : 0 < 0 * 10 + (digit.toNat - 48) := by
    have different : digit.toNat ≠ '0'.toNat := mt Char.toNat_inj.mp notZero
    simp only [Character.isDigit, Bool.and_eq_true, decide_eq_true_eq] at isDigit
    change digit.toNat ≠ 48 at different
    omega
  exact Nat.lt_of_lt_of_le value (le_foldl_digits _ digits)

theorem numberOfDigits_concat (digits : List Char) (last : Char) :
    numberOfDigits (digits ++ [last]) =
      numberOfDigits digits * 10 + (last.toNat - 48) := by
  rw [numberOfDigits, List.foldl_append]
  rfl

theorem digitChar_of_isDigit {digit : Char} (isDigit : isDigit digit = true) :
    digit.toNat - 48 < 10 ∧ (digit.toNat - 48).digitChar = digit := by
  have bounds : 48 ≤ digit.toNat ∧ digit.toNat ≤ 57 := by
    simpa [Character.isDigit] using isDigit
  have codes : ∀ value < 10, value.digitChar.toNat = value + 48 := by decide
  have small : digit.toNat - 48 < 10 := by omega
  refine ⟨small, Char.toNat_inj.mp ?_⟩
  rw [codes _ small]
  omega

/-- Digits without a zero in front are those of their number. -/
theorem toDigits_numberOfDigits {first : Char} {rest : List Char}
    (digits : ∀ digit ∈ first :: rest, isDigit digit = true) (notZero : first ≠ '0') :
    Nat.toDigits 10 (numberOfDigits (first :: rest)) = first :: rest := by
  induction rest using List.reverseRecOn with
  | nil =>
      rcases digitChar_of_isDigit (digits first List.mem_cons_self) with ⟨small, char⟩
      have value : numberOfDigits [first] = first.toNat - 48 := by
        rw [← List.nil_append [first], numberOfDigits_concat, numberOfDigits,
          List.foldl_nil, Nat.zero_mul, Nat.zero_add]
      rw [value, Nat.toDigits_of_lt_base small, char]
  | append_singleton rest last induction =>
      have isLast : isDigit last = true := digits last (by simp)
      rcases digitChar_of_isDigit isLast with ⟨small, char⟩
      have front :=
        induction fun digit member => digits digit (List.mem_append_left [last] member)
      have positive : 0 < numberOfDigits (first :: rest) :=
        numberOfDigits_pos (digits first List.mem_cons_self) notZero
      rw [← List.cons_append, numberOfDigits_concat, Nat.mul_comm,
        ← Nat.toDigits_append_toDigits (by decide) positive small, front,
        Nat.toDigits_of_lt_base small, char]

end Character

namespace Identifier

theorem isPlain_ofCharacters {first : Char} {rest : List Char} (notZero : first ≠ '0') :
    (ofCharacters (first :: rest)).IsPlain := by
  have significant : (first :: rest).dropWhile (· == '0') = first :: rest :=
    List.dropWhile_cons_of_neg (by simpa using notZero)
  rw [ofCharacters]
  split
  · rename_i digits
    have isDigit := List.all_eq_true.mp digits first List.mem_cons_self
    have positive : 0 < Character.numberOfDigits (first :: rest) :=
      Character.numberOfDigits_pos isDigit notZero
    simp only [significant, Nat.sub_self, IsPlain]
    exact (if_neg (Nat.ne_of_gt positive)).symm
  · trivial

theorem isPlain_of_parsePreRelease? {characters : List Char} {identifier : Identifier}
    (parsed : parsePreRelease? characters = some identifier) : identifier.IsPlain := by
  rw [parsePreRelease?, parseBuild?] at parsed
  split at parsed
  · cases parsed
  · rename_i accepted
    split at parsed
    · rename_i valid
      cases parsed
      rcases characters with _ | ⟨first, rest⟩
      · cases valid
      · by_cases zero : first = '0'
        · subst zero
          by_cases digits : ('0' :: rest).all Character.isDigit = true
          · have lone : '0' :: rest = ['0'] := by simpa [digits] using accepted
            rw [lone]
            rfl
          · rw [ofCharacters, if_neg digits]
            trivial
        · exact isPlain_ofCharacters zero
    · cases parsed

theorem isPlain_of_mapM {pieces : List (List Char)} {identifiers : List Identifier}
    (parsed : pieces.mapM parsePreRelease? = some identifiers) :
    ∀ identifier ∈ identifiers, identifier.IsPlain := by
  induction pieces generalizing identifiers with
  | nil =>
      cases parsed
      nofun
  | cons piece pieces induction =>
      rw [List.mapM_cons] at parsed
      rcases Option.bind_eq_some_iff.mp parsed with ⟨first, isFirst, afterFirst⟩
      rcases Option.bind_eq_some_iff.mp afterFirst with ⟨others, areOthers, last⟩
      cases last
      exact List.forall_mem_cons.mpr ⟨isPlain_of_parsePreRelease? isFirst,
        induction areOthers⟩

/-! ## Identifiers that have been read -/

theorem append_dropWhile_zero (text : List Char) :
    List.replicate (text.length - (text.dropWhile (· == '0')).length) '0' ++
      text.dropWhile (· == '0') = text := by
  have joined := List.takeWhile_append_dropWhile (p := (· == '0')) (l := text)
  have length := congrArg List.length joined
  rw [List.length_append] at length
  have zeros : text.takeWhile (· == '0') =
      List.replicate (text.length - (text.dropWhile (· == '0')).length) '0' := by
    apply List.eq_replicate_iff.mpr
    refine ⟨by omega, ?_⟩
    intro character member
    simpa using List.all_eq_true.mp List.all_takeWhile character member
  rw [← zeros, joined]

theorem render_numeric_of_pos {value : Nat} (positive : 0 < value) (leadingZeros : Nat) :
    (Identifier.numeric value leadingZeros).render =
      List.replicate leadingZeros '0' ++ Nat.toDigits 10 value := by
  cases value with
  | zero => cases positive
  | succ value => rfl

theorem render_ofCharacters (characters : List Char) :
    (ofCharacters characters).render = characters := by
  rw [ofCharacters]
  split
  · rename_i digits
    have joined := append_dropWhile_zero characters
    cases significant : characters.dropWhile (· == '0') with
    | nil =>
        rw [significant, List.append_nil] at joined
        exact joined
    | cons first rest =>
        have notZero : first ≠ '0' := by
          have starts := List.head?_dropWhile_not (· == '0') characters
          simpa [significant] using starts
        have isDigits : ∀ digit ∈ first :: rest, Character.isDigit digit = true := by
          intro digit member
          rw [← significant] at member
          exact List.all_eq_true.mp digits digit ((List.dropWhile_suffix _).subset member)
        have value := Character.toDigits_numberOfDigits isDigits notZero
        have positive : 0 < Character.numberOfDigits (first :: rest) :=
          Character.numberOfDigits_pos (isDigits first List.mem_cons_self) notZero
        rw [significant] at joined
        dsimp only
        rw [render_numeric_of_pos positive, value, joined]
  · exact String.toList_ofList

theorem render_of_parseBuild? {characters : List Char} {identifier : Identifier}
    (parsed : parseBuild? characters = some identifier) :
    identifier.render = characters := by
  rw [parseBuild?] at parsed
  split at parsed
  · cases parsed
    exact render_ofCharacters characters
  · cases parsed

theorem render_of_parsePreRelease? {characters : List Char} {identifier : Identifier}
    (parsed : parsePreRelease? characters = some identifier) :
    identifier.render = characters := by
  rw [parsePreRelease?] at parsed
  split at parsed
  · cases parsed
  · exact render_of_parseBuild? parsed

theorem map_render_of_mapM {parse : List Char → Option Identifier}
    (reads : ∀ characters identifier, parse characters = some identifier →
      identifier.render = characters) {pieces : List (List Char)}
    {identifiers : List Identifier} (parsed : pieces.mapM parse = some identifiers) :
    identifiers.map render = pieces := by
  induction pieces generalizing identifiers with
  | nil =>
      cases parsed
      rfl
  | cons piece pieces induction =>
      simp only [List.mapM_cons, Option.bind_eq_bind, Option.bind_eq_some_iff,
        Option.pure_def, Option.some.injEq] at parsed
      rcases parsed with ⟨first, ofFirst, rest, ofRest, rfl⟩
      rw [List.map_cons, reads piece first ofFirst, induction ofRest]

end Identifier

namespace Version

variable {text other : List Char} {version otherVersion : Version}

/-- The pieces of text that the parts of a version are read from. -/
theorem exists_parts_of_ofCharacters? (parsed : ofCharacters? text = some version) :
    ∃ major minor patch, splitAt '.' (cutAt '-' (cutAt '+' text).1).1 =
      [major, minor, patch] ∧
      number? major = some version.major ∧ number? minor = some version.minor ∧
      number? patch = some version.patch ∧
      optionalIdentifiers? Identifier.parsePreRelease? (cutAt '-' (cutAt '+' text).1).2 =
        some version.preRelease ∧
      optionalIdentifiers? Identifier.parseBuild? (cutAt '+' text).2 =
        some version.build := by
  rw [ofCharacters?] at parsed
  dsimp only at parsed
  split at parsed
  · rename_i major minor patch numbers
    simp only [Option.bind_eq_bind, Option.bind_eq_some_iff, Option.pure_def,
      Option.some.injEq] at parsed
    rcases parsed with ⟨_, isMajor, _, isMinor, _, isPatch, _, preRelease, _, build, rfl⟩
    exact ⟨major, minor, patch, numbers, isMajor, isMinor, isPatch, preRelease, build⟩
  · cases parsed

theorem isPlain_of_ofCharacters? (parsed : ofCharacters? text = some version) :
    ∀ identifier ∈ version.preRelease, identifier.IsPlain := by
  rcases exists_parts_of_ofCharacters? parsed with ⟨_, _, _, _, _, _, _, preRelease, _⟩
  cases written : (cutAt '-' (cutAt '+' text).1).2 with
  | none =>
      rw [written] at preRelease
      rw [← Option.some.inj preRelease]
      nofun
  | some identifiers =>
      rw [written] at preRelease
      exact Identifier.isPlain_of_mapM preRelease

/-- Texts that agree up to the first `+` are those of one version, but for its build
metadata. -/
theorem withoutBuild_eq_of_ofCharacters? (same : (cutAt '+' text).1 = (cutAt '+' other).1)
    (parsed : ofCharacters? text = some version)
    (parsedOther : ofCharacters? other = some otherVersion) :
    version.withoutBuild = otherVersion.withoutBuild := by
  rcases exists_parts_of_ofCharacters? parsed with
    ⟨_, _, _, numbers, isMajor, isMinor, isPatch, preRelease, _⟩
  rcases exists_parts_of_ofCharacters? parsedOther with
    ⟨_, _, _, otherNumbers, isOtherMajor, isOtherMinor, isOtherPatch, otherPreRelease, _⟩
  rw [← same] at otherNumbers otherPreRelease
  cases numbers.symm.trans otherNumbers
  have sameMajor := Option.some.inj (isMajor.symm.trans isOtherMajor)
  have sameMinor := Option.some.inj (isMinor.symm.trans isOtherMinor)
  have samePatch := Option.some.inj (isPatch.symm.trans isOtherPatch)
  have samePreRelease := Option.some.inj (preRelease.symm.trans otherPreRelease)
  simp only [withoutBuild, sameMajor, sameMinor, samePatch, samePreRelease]

/-! ## Where the text is cut -/

theorem fst_cutAt (mark : Char) (text : List Char) :
    (cutAt mark text).1 = text.takeWhile (· ≠ mark) := by
  have joined := List.takeWhile_append_dropWhile (p := (· ≠ mark)) (l := text)
  rw [cutAt]
  split
  · rename_i none
    rw [none, List.append_nil] at joined
    exact joined.symm
  · rfl

theorem head?_splitAt (mark : Char) (text : List Char) :
    (splitAt mark text).head? = some (text.takeWhile (· ≠ mark)) := by
  induction text with
  | nil => rfl
  | cons first rest induction =>
      rw [splitAt]
      by_cases here : first = mark
      · rw [if_pos here, List.takeWhile_cons_of_neg (by simpa using here)]
        rfl
      · rw [if_neg here, List.takeWhile_cons_of_pos (by simpa using here)]
        split
        · rename_i none
          rw [none] at induction
          cases induction
        · rename_i some
          rw [some] at induction
          exact congrArg (fun piece => Option.some (first :: piece))
            (Option.some.inj induction)

theorem exists_digit_of_number? {characters : List Char} {number : Nat}
    (parsed : number? characters = some number) :
    ∃ first rest, characters = first :: rest ∧ Character.isDigit first = true := by
  rw [number?] at parsed
  split at parsed
  · cases parsed
  · rename_i digits
    cases characters with
    | nil => exact absurd rfl digits
    | cons first rest =>
        have all : (first :: rest).all Character.isDigit = true := by
          simpa only [List.isEmpty_cons, Bool.false_or, Bool.not_eq_true',
            Bool.not_eq_false] using digits
        exact ⟨first, rest, rfl, List.all_eq_true.mp all first List.mem_cons_self⟩

/-- The text of a version starts with a digit. -/
theorem exists_digit_of_ofCharacters? (parsed : ofCharacters? text = some version) :
    ∃ first rest, text = first :: rest ∧ Character.isDigit first = true := by
  rcases exists_parts_of_ofCharacters? parsed with ⟨major, _, _, numbers, isMajor, _⟩
  rcases exists_digit_of_number? isMajor with ⟨first, rest, rfl, isDigit⟩
  have starts := head?_splitAt '.' (cutAt '-' (cutAt '+' text).1).1
  rw [numbers, fst_cutAt, fst_cutAt] at starts
  have isPrefix : first :: rest <+: text := by
    rw [Option.some.inj starts]
    exact (List.takeWhile_prefix _).trans
      ((List.takeWhile_prefix _).trans (List.takeWhile_prefix _))
  rcases isPrefix with ⟨more, rfl⟩
  exact ⟨first, rest ++ more, rfl, isDigit⟩

/-! ## What has been read is written as it was -/

theorem append_cutAt (mark : Char) (text : List Char) :
    (cutAt mark text).1 ++ ((cutAt mark text).2.elim [] (mark :: ·)) = text := by
  have joined := List.takeWhile_append_dropWhile (p := (· ≠ mark)) (l := text)
  rw [cutAt]
  split
  · exact List.append_nil text
  · rename_i first rest after
    have isMark : first = mark := by
      have starts := List.head?_dropWhile_not (· ≠ mark) text
      rw [after] at starts
      simpa using starts
    rw [after, isMark] at joined
    exact joined

theorem join_splitAt (mark : Char) (text : List Char) :
    ∃ first rest, splitAt mark text = first :: rest ∧
      first ++ rest.flatMap (mark :: ·) = text := by
  induction text with
  | nil => exact ⟨[], [], rfl, rfl⟩
  | cons character text induction =>
      rcases induction with ⟨first, rest, pieces, joined⟩
      rw [splitAt, pieces]
      split
      · rename_i here
        refine ⟨[], first :: rest, rfl, ?_⟩
        simp [here, joined]
      · exact ⟨character :: first, rest, rfl, congrArg (character :: ·) joined⟩

theorem toDigits_of_number? {characters : List Char} {number : Nat}
    (parsed : number? characters = some number) :
    Nat.toDigits 10 number = characters := by
  rcases exists_digit_of_number? parsed with ⟨first, rest, rfl, _⟩
  rw [number?] at parsed
  split at parsed
  · cases parsed
  · rename_i digits
    split at parsed
    · cases parsed
    · rename_i plain
      split at parsed
      · cases parsed
        by_cases zero : first = '0'
        · subst zero
          have lone : rest = [] := by simpa using plain
          rw [lone]
          rfl
        · apply Character.toDigits_numberOfDigits _ zero
          simpa using digits
      · cases parsed

theorem renderIdentifiers_of_identifiers? {parse : List Char → Option Identifier}
    (reads : ∀ characters identifier, parse characters = some identifier →
      identifier.render = characters) {identifiers : List Identifier} (mark : Char)
    (parsed : identifiers? parse text = some identifiers) :
    renderIdentifiers mark identifiers = mark :: text := by
  have pieces := Identifier.map_render_of_mapM reads parsed
  rcases join_splitAt '.' text with ⟨first, rest, split, joined⟩
  cases identifiers with
  | nil =>
      rw [split] at pieces
      cases pieces
  | cons identifier identifiers =>
      rw [split, List.map_cons, List.cons.injEq] at pieces
      rw [renderIdentifiers, ← joined, ← pieces.1, ← pieces.2, List.flatMap_map]
      rfl

theorem renderIdentifiers_of_optionalIdentifiers? {parse : List Char → Option Identifier}
    (reads : ∀ characters identifier, parse characters = some identifier →
      identifier.render = characters) {identifiers : List Identifier} (mark : Char)
    {written : Option (List Char)}
    (parsed : optionalIdentifiers? parse written = some identifiers) :
    renderIdentifiers mark identifiers = written.elim [] (mark :: ·) := by
  cases written with
  | none =>
      cases parsed
      rfl
  | some text => exact renderIdentifiers_of_identifiers? reads mark parsed

/-- A text that is accepted is the one that its version is written as. -/
theorem render_of_parse? {text : String} (parsed : parse? text = some version) :
    version.render = text := by
  rcases exists_parts_of_ofCharacters? parsed with
    ⟨major, minor, patch, pieces, isMajor, isMinor, isPatch, preRelease, build⟩
  have withBuild := append_cutAt '+' text.toList
  have withPreRelease := append_cutAt '-' (cutAt '+' text.toList).1
  have numbers : major ++ '.' :: minor ++ '.' :: patch =
      (cutAt '-' (cutAt '+' text.toList).1).1 := by
    rcases join_splitAt '.' (cutAt '-' (cutAt '+' text.toList).1).1 with
      ⟨first, rest, split, joined⟩
    cases pieces.symm.trans split
    simpa using joined
  apply String.toList_inj.mp
  rw [render, String.toList_ofList, toDigits_of_number? isMajor,
    toDigits_of_number? isMinor, toDigits_of_number? isPatch,
    renderIdentifiers_of_optionalIdentifiers?
      (fun _ _ => Identifier.render_of_parsePreRelease?) '-' preRelease,
    renderIdentifiers_of_optionalIdentifiers?
      (fun _ _ => Identifier.render_of_parseBuild?) '+' build,
    numbers, withPreRelease, withBuild]

end Version

end ContractCode
