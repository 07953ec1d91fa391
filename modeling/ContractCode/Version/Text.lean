import ContractCode.Version
import ContractCode.Text.Character

/-!
The text of a version: three numbers of at most 64 bits without leading zeros, joined by
points, then optionally a pre-release after `-` and build metadata after `+`.
Identifiers are letters, digits and `-`, at least one; a numeric identifier of a
pre-release has no leading zeros. Nothing else is accepted.
-/

namespace ContractCode

open Character

namespace Identifier

def isCharacter (character : Char) : Bool :=
  isDigit character || isLetter character || character == '-'

def ofCharacters (characters : List Char) : Identifier :=
  if characters.all isDigit then
    let significant := characters.dropWhile (· == '0')
    .numeric (numberOfDigits significant) (characters.length - significant.length)
  else .word (String.ofList characters)

def parseBuild? (characters : List Char) : Option Identifier :=
  if !characters.isEmpty && characters.all isCharacter then
    some (ofCharacters characters) else none

/-- An identifier of a pre-release, which is a lone `0` or has no zero in front if it is
a number. -/
def parsePreRelease? (characters : List Char) : Option Identifier :=
  if characters.all isDigit && characters.head? == some '0' &&
      characters != ['0'] then none
  else parseBuild? characters

end Identifier

namespace Version

def splitAt (mark : Char) : List Char → List (List Char)
  | [] => [[]]
  | character :: rest =>
    if character = mark then [] :: splitAt mark rest
    else
      match splitAt mark rest with
      | [] => [[character]]
      | piece :: pieces => (character :: piece) :: pieces

/-- The text before the first mark, and the text after it if there is a mark. -/
def cutAt (mark : Char) (text : List Char) : List Char × Option (List Char) :=
  match text.dropWhile (· ≠ mark) with
  | [] => (text, none)
  | _ :: rest => (text.takeWhile (· ≠ mark), some rest)

def identifiers? (parse : List Char → Option Identifier) (text : List Char) :
    Option (List Identifier) :=
  (splitAt '.' text).mapM parse

def optionalIdentifiers? (parse : List Char → Option Identifier) :
    Option (List Char) → Option (List Identifier)
  | none => some []
  | some text => identifiers? parse text

/-- A number of at most 64 bits without leading zeros. -/
def number? (characters : List Char) : Option Nat :=
  if characters.isEmpty || !characters.all isDigit then none
  else if characters.head? == some '0' && characters != ['0'] then none
  else if numberOfDigits characters < UInt64.size then some (numberOfDigits characters)
  else none

def ofCharacters? (text : List Char) : Option Version :=
  let (withoutBuild, build) := cutAt '+' text
  let (numbers, preRelease) := cutAt '-' withoutBuild
  match splitAt '.' numbers with
  | [major, minor, patch] => do
    let major ← number? major
    let minor ← number? minor
    let patch ← number? patch
    let preRelease ← optionalIdentifiers? Identifier.parsePreRelease? preRelease
    let build ← optionalIdentifiers? Identifier.parseBuild? build
    return ⟨major, minor, patch, preRelease, build⟩
  | _ => none

def parse? (text : String) : Option Version := ofCharacters? text.toList

example :
    (parse? "0.3.10-rc.1+commit.91361694").map render =
      some "0.3.10-rc.1+commit.91361694" := by
  decide +kernel

example : parse? "0.08.14" = none := by decide +kernel

end Version

end ContractCode
