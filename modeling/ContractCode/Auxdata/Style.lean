import ContractCode.Auxdata.Vyper
import ContractCode.Auxdata.Solidity

/-!
How a compiler lays out the metadata that it appends to code. Three of the four styles
put a length of two bytes behind the metadata; they differ in whether that length counts
itself. The style of a Vyper compiler follows from two versions at which the layout
changed.
-/

namespace ContractCode

inductive Language where
  | solidity | yul | vyper
deriving Repr, DecidableEq

namespace Language

def displayName : Language → String
  | .solidity => "Solidity"
  | .yul => "Yul"
  | .vyper => "Vyper"

end Language

/-! The Vyper versions at which the layout changed: since the first one the metadata
ends with its length, and since the second one that length counts itself. -/

structure VyperThresholds where
  lengthSuffixSince : Version := .release 0 3 5
  selfInclusiveLengthSince : Version := .release 0 3 10
deriving Repr, DecidableEq

namespace Auxdata

inductive Style where
  /-- A map, then its length. -/
  | solidity
  /-- An array, then the length of the array and the length suffix together. -/
  | vyper
  /-- A map, then its length. -/
  | vyperBefore0310
  /-- A map of fixed size. -/
  | vyperBefore035
deriving Repr, DecidableEq

def suffixSize : Nat := 2

/-- Bytes of the metadata of a style without a length suffix. -/
def fixedSize : Nat := 11

namespace Style

/-- The version of a compiler: without the `v` in front and without build metadata,
which names the commit that the compiler was built from. -/
def compilerVersion? (text : String) : Option Version :=
  (Version.ofCharacters? (text.toList.dropWhile (· == 'v'))).map Version.withoutBuild

/-- The style of a compiler. A Vyper compiler whose version cannot be read counts as a
new one. -/
def forCompiler (language : Language) (version : String)
    (thresholds : VyperThresholds) : Style :=
  match language with
  | .solidity | .yul => .solidity
  | .vyper =>
    match compilerVersion? version with
    | some version =>
      if version < thresholds.lengthSuffixSince then .vyperBefore035
      else if version < thresholds.selfInclusiveLengthSince then .vyperBefore0310
      else .vyper
    | none => .vyper

def hasSuffix : Style → Bool
  | .vyperBefore035 => false
  | _ => true

def trailerSize (style : Style) : Nat := if style.hasSuffix then suffixSize else 0

def chunkSize (style : Style) (encodedLength : Nat) : Nat :=
  match style with
  | .vyper => encodedLength
  | _ => encodedLength + suffixSize

def decodedSize? (style : Style) (encoded : Bytes) : Option Nat :=
  match style with
  | .solidity => SolidityAuxdata.metadataSize? encoded
  | _ =>
    match VyperAuxdata.decode encoded with
    | .ok (_, size) => some size
    | .error _ => none

end Style

end Auxdata

end ContractCode
