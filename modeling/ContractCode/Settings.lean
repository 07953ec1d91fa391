import ContractCode.Auxdata.Style
import ContractCode.Version.Text
import ContractCode.Json.Record

/-!
The settings: the Vyper versions at which the layout of metadata changed. Their
documents may leave any field out, which then has its default, but must not have other
fields.
-/

namespace ContractCode

/-! ## Languages -/

namespace Language

def name : Language → String
  | .solidity => "solidity"
  | .yul => "yul"
  | .vyper => "vyper"

def ofName? : String → Option Language
  | "solidity" => some .solidity
  | "yul" => some .yul
  | "vyper" => some .vyper
  | _ => none

def toJson (language : Language) : Json := .text language.name

def ofJson? (json : Json) : Option Language := json.name?.bind ofName?

end Language

/-! ## Thresholds -/

namespace VyperThresholds

def toJson (thresholds : VyperThresholds) : Json :=
  .object [
    ("length_suffix_since", .text thresholds.lengthSuffixSince.render),
    ("self_inclusive_length_since", .text thresholds.selfInclusiveLengthSince.render)]

def fieldNames : List String := ["length_suffix_since", "self_inclusive_length_since"]

def versionOfJson? (json : Json) : Option Version := json.text?.bind Version.parse?

def ofJson? (json : Json) : Option VyperThresholds := do
  match ← json.knownFields? fieldNames with
  | [suffix, selfInclusive] =>
    let defaults : VyperThresholds := {}
    let suffix ← Json.defaulted? defaults.lengthSuffixSince versionOfJson? suffix
    let selfInclusive ←
      Json.defaulted? defaults.selfInclusiveLengthSince versionOfJson? selfInclusive
    return ⟨suffix, selfInclusive⟩
  | _ => none

/-- The layout changed first by getting a length and then by counting it. -/
def Ordered (thresholds : VyperThresholds) : Prop :=
  ¬ thresholds.selfInclusiveLengthSince < thresholds.lengthSuffixSince

instance (thresholds : VyperThresholds) : Decidable thresholds.Ordered :=
  inferInstanceAs (Decidable (¬ _ < _))

end VyperThresholds

/-! ## Settings -/

structure Settings where
  vyperAuxdata : VyperThresholds := {}
deriving Repr, DecidableEq

namespace Settings

def toJson (settings : Settings) : Json :=
  .object [("vyper_auxdata", settings.vyperAuxdata.toJson)]

def ofJson? (json : Json) : Option Settings := do
  match ← json.knownFields? ["vyper_auxdata"] with
  | [thresholds] =>
    let thresholds ← Json.defaulted? {} VyperThresholds.ofJson? thresholds
    return ⟨thresholds⟩
  | _ => none

end Settings

end ContractCode
