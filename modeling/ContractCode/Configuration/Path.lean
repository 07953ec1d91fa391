import ContractCode.Json
import ContractCode.Text.Character

/-!
Paths to the values of a configuration. A path starts with a key; points lead to further
keys and numbers in brackets to the items of lists, where negative numbers count from
the end. Putting a value where a path leads makes the objects and lists on the way.
-/

namespace ContractCode.Configuration

inductive Step where
  | key (name : String)
  | index (position : Int)
deriving Repr, DecidableEq

/-! ## Names of paths -/

def isKeyCharacter (character : Char) : Bool :=
  Character.isLetter character || Character.isDigit character || character == '_' ||
    character == '-' || character == ' '

def takeKey? (text : List Char) : Option (Step × List Char) :=
  match text.takeWhile isKeyCharacter with
  | [] => none
  | key => some (.key (String.ofList key), text.dropWhile isKeyCharacter)

def dropBlanks (text : List Char) : List Char :=
  text.dropWhile fun character => character == ' ' || character == '\t'

/-- A position has a sign and 63 bits. -/
def positionLimit : Nat := UInt64.size / 2

def takeDigits? (text : List Char) : Option (Nat × List Char) :=
  let number := Character.numberOfDigits (text.takeWhile Character.isDigit)
  if text.takeWhile Character.isDigit = [] ∨ positionLimit ≤ number then none
  else
    match dropBlanks (text.dropWhile Character.isDigit) with
    | ']' :: rest => some (number, rest)
    | _ => none

def takePosition? (text : List Char) : Option (Step × List Char) :=
  match dropBlanks text with
  | '-' :: rest => (takeDigits? rest).map fun (number, rest) => (.index (-number), rest)
  | text => (takeDigits? text).map fun (number, rest) => (.index number, rest)

/-- The steps of a text; `fuel` bounds their number. -/
def steps? : (fuel : Nat) → List Char → Option (List Step)
  | _, [] => some []
  | 0, _ => none
  | fuel + 1, character :: rest => do
    let (step, rest) ←
      match character with
      | '.' => takeKey? rest
      | '[' => takePosition? rest
      | _ => none
    let steps ← steps? fuel rest
    return step :: steps

/-- The path that a name spells. A name that spells none is a single key. -/
def pathOfName (name : List Char) : List Step :=
  let spelt := do
    let (first, rest) ← takeKey? name
    let steps ← steps? rest.length rest
    return first :: steps
  spelt.getD [.key (String.ofList name)]

/-! ## Values at paths -/

def membersOf : Json → List (String × Json)
  | .object members => members
  | _ => []

def itemsOf : Json → List Json
  | .array items => items
  | _ => []

def withMember (key : String) (value : Json) (members : List (String × Json)) :
    List (String × Json) :=
  members.filter (fun member => member.1 ≠ key) ++ [(key, value)]

/-- The items with so many nulls behind them that there is one at a place. -/
def reachingTo (place : Nat) (items : List Json) : List Json :=
  items ++ List.replicate (place + 1 - items.length) .null

/-- The place of a position in a list of the given length. There is none before the
start. -/
def placeOf? : (position : Int) → (length : Nat) → Option Nat
  | .ofNat place, _ => some place
  | .negSucc fromEnd, length =>
    if fromEnd < length then some (length - (fromEnd + 1)) else none

/-- Puts a value where a path leads. Values on the way that are no objects or no lists
are replaced by ones that are. -/
def assign (value : Json) : (path : List Step) → (whole : Json) → Json
  | [], _ => value
  | .key key :: path, whole =>
    let members := membersOf whole
    .object (withMember key (assign value path ((members.lookup key).getD .null)) members)
  | .index position :: path, whole =>
    let items := itemsOf whole
    match placeOf? position items.length with
    | none => whole
    | some place =>
      let items := reachingTo place items
      .array (items.set place (assign value path (items.getD place .null)))

end ContractCode.Configuration
