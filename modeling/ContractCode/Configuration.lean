import ContractCode.Configuration.Path
import ContractCode.Settings

/-!
Settings from a configuration file and from environment variables, which override the
file. A variable belongs to the program if its name starts with `bytecode_matcher__` in
any case; the rest of the name is a path, in which two underscores may stand for a
point.
-/

namespace ContractCode.Configuration

/-! ## Variables -/

/-- What the names of the program's variables start with. -/
def namespaceMark : List Char := "bytecode_matcher__".toList

def pointsForUnderscores : List Char → List Char
  | '_' :: '_' :: rest => '.' :: pointsForUnderscores rest
  | character :: rest => character :: pointsForUnderscores rest
  | [] => []

/-- The path of a variable, if it belongs to the program. -/
def pathOfVariable? (name : String) : Option (List Step) :=
  let name := name.toList.map Char.toLower
  if namespaceMark.isPrefixOf name then
    some (pathOfName (pointsForUnderscores (name.drop namespaceMark.length)))
  else none

/-! ## Loading -/

def ofFile (file : Option Json) : Json :=
  (membersOf (file.getD .null)).foldl
    (fun whole member => assign member.2 (pathOfName member.1.toList) whole) (.object [])

def withVariables (environment : List (String × String)) (whole : Json) : Json :=
  environment.foldl
    (fun whole entry =>
      match pathOfVariable? entry.1 with
      | some path => assign (.text entry.2) path whole
      | none => whole)
    whole

/-- A list in the place of a record may go on behind the fields; what is there is left
out. -/
def withoutSurplus (fieldCount : Nat) : Json → Json
  | .array items => .array (items.take fieldCount)
  | value => value

def settingsOf? (whole : Json) : Option Settings :=
  let members := (membersOf whole).map fun member =>
    (member.1, withoutSurplus VyperThresholds.fieldNames.length member.2)
  Settings.ofJson? (.object members)

inductive LoadError where
  | unreadable
  | inconsistentVersions (lengthSuffix selfInclusive : Version)
deriving Repr, DecidableEq

/-- What an error says. What is wrong with values that cannot be read is left to their
reader. -/
def LoadError.message? : LoadError → Option String
  | .unreadable => none
  | .inconsistentVersions lengthSuffix selfInclusive =>
    some <|
      s!"vyper auxdata length suffix version ({lengthSuffix.render}) must not exceed " ++
      s!"self inclusive length version ({selfInclusive.render})"

def fileVariable : String := "BYTECODE_MATCHER_CONFIG"

/-- The environment asks for a file that is not there. -/
def FileMissing (environment : List (String × String)) (file : Option Json) : Prop :=
  file.isNone ∧ fileVariable ∈ environment.map Prod.fst

instance (environment : List (String × String)) (file : Option Json) :
    Decidable (FileMissing environment file) :=
  inferInstanceAs (Decidable (_ ∧ _))

def load (environment : List (String × String)) (file : Option Json) :
    Except LoadError Settings :=
  if FileMissing environment file then .error .unreadable
  else
    match settingsOf? (withVariables environment (ofFile file)) with
    | none => .error .unreadable
    | some settings =>
      let thresholds := settings.vyperAuxdata
      if thresholds.Ordered then .ok settings
      else
        .error
          (.inconsistentVersions thresholds.lengthSuffixSince
            thresholds.selfInclusiveLengthSince)

end ContractCode.Configuration
