/-!
Semantic versions: three numbers, the identifiers of a pre-release and the identifiers
of build metadata. The order looks at the numbers first, then at the pre-release, where
a version without one comes after all of its pre-releases, and last at the build
metadata, where a version without any comes first.
-/

namespace ContractCode

/-! An identifier made of digits is a number. It keeps the zeros in front of its value,
because build metadata may have them: `0` is one zero and the value nought, `007` is two
zeros and the value seven. -/

inductive Identifier where
  | numeric (value leadingZeros : Nat)
  | word (text : String)
deriving Repr, DecidableEq

namespace Identifier

/-- Numbers come before words; numbers go by value and then by leading zeros, words by
their text. -/
def compare : Identifier → Identifier → Ordering
  | .numeric value zeros, .numeric value' zeros' =>
    (Ord.compare value value').then (Ord.compare zeros zeros')
  | .numeric _ _, .word _ => .lt
  | .word _, .numeric _ _ => .gt
  | .word text, .word text' => compareOfLessAndEq text text'

/-- Lists are compared one identifier after the other; a list comes before its
continuations. -/
def compareAll : List Identifier → List Identifier → Ordering
  | [], [] => .eq
  | [], _ :: _ => .lt
  | _ :: _, [] => .gt
  | left :: lefts, right :: rights => (compare left right).then (compareAll lefts rights)

def render : Identifier → List Char
  | .numeric 0 zeros => List.replicate zeros '0'
  | .numeric value zeros => List.replicate zeros '0' ++ Nat.toDigits 10 value
  | .word text => text.toList

end Identifier

structure Version where
  major : Nat
  minor : Nat
  patch : Nat
  preRelease : List Identifier
  build : List Identifier
deriving Repr, DecidableEq

namespace Version

def release (major minor patch : Nat) : Version := ⟨major, minor, patch, [], []⟩

/-- A release comes after all of its pre-releases. -/
def comparePreRelease : List Identifier → List Identifier → Ordering
  | [], [] => .eq
  | [], _ :: _ => .gt
  | _ :: _, [] => .lt
  | left, right => Identifier.compareAll left right

def compare (left right : Version) : Ordering :=
  (Ord.compare left.major right.major).then <|
  (Ord.compare left.minor right.minor).then <|
  (Ord.compare left.patch right.patch).then <|
  (comparePreRelease left.preRelease right.preRelease).then <|
  Identifier.compareAll left.build right.build

instance : LT Version := ⟨fun left right => compare left right = .lt⟩

instance (left right : Version) : Decidable (left < right) :=
  inferInstanceAs (Decidable (compare left right = .lt))

def withoutBuild (version : Version) : Version := { version with build := [] }

/-- Identifiers joined by points behind a mark, or nothing if there are none. -/
def renderIdentifiers (mark : Char) : List Identifier → List Char
  | [] => []
  | first :: rest =>
    mark :: first.render ++ rest.flatMap fun identifier => '.' :: identifier.render

def render (version : Version) : String :=
  String.ofList <|
    Nat.toDigits 10 version.major ++ '.' :: Nat.toDigits 10 version.minor ++
      '.' :: Nat.toDigits 10 version.patch ++ renderIdentifiers '-' version.preRelease ++
      renderIdentifiers '+' version.build

end Version

end ContractCode
