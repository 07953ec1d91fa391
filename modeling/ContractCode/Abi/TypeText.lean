import ContractCode.Text.Character

/-!
The text of a parameter type in a contract interface. A type is a name or a tuple of
types in parentheses, followed by any number of array sizes in brackets. Blanks may
stand after an opening parenthesis, after a comma and before a closing parenthesis, and
a tuple may end with a comma. Tuples nested deeper than `levelLimit` are refused.
-/

namespace ContractCode.Abi

inductive TypeText where
  | name (identifier : String)
  | tuple (members : List TypeText)
  /-- An array of a fixed length, or of any length. -/
  | array (element : TypeText) (length : Option Nat)
deriving Repr

/-! ## Names -/

def isNameStart (character : Char) : Bool :=
  Character.isLetter character || character == '$' || character == '_'

def isNameCharacter (character : Char) : Bool :=
  isNameStart character || Character.isDigit character

def isName (text : List Char) : Bool :=
  match text with
  | [] => false
  | first :: rest => isNameStart first && rest.all isNameCharacter

def takeName? (text : List Char) : Option (List Char × List Char) :=
  match text with
  | [] => none
  | first :: rest =>
    if isNameStart first then
      some (first :: rest.takeWhile isNameCharacter, rest.dropWhile isNameCharacter)
    else none

namespace TypeText

def isBlank (character : Char) : Bool := character == ' ' || character == '\t'

def dropBlanks (text : List Char) : List Char := text.dropWhile isBlank

/-- The type that a name with a point stands for: an enumeration, which is kept in one
byte. -/
def enumeration : TypeText := .name "uint8"

/-- A name, or a name with a point and perhaps another name behind it. -/
def named? (text : List Char) : Option (TypeText × List Char) :=
  match takeName? text with
  | none => none
  | some (_, '.' :: rest) =>
    match takeName? rest with
    | some (_, rest) => some (enumeration, rest)
    | none => some (enumeration, rest)
  | some (identifier, rest) => some (.name (String.ofList identifier), rest)

/-- The length in brackets of which the first has been read: no digits for any length,
or a number of at most 64 bits other than nought. -/
def length? (text : List Char) : Option (Option Nat × List Char) :=
  let digits := text.takeWhile Character.isDigit
  match text.dropWhile Character.isDigit with
  | ']' :: rest =>
    if digits.isEmpty then some (none, rest)
    else
      let length := Character.numberOfDigits digits
      if length = 0 ∨ UInt64.size ≤ length then none else some (some length, rest)
  | _ => none

def tupleStart? : List Char → Option (List Char)
  | '(' :: rest => some rest
  | 't' :: 'u' :: 'p' :: 'l' :: 'e' :: '(' :: rest => some rest
  | _ => none

/-- Wraps an element into the array sizes that follow it; `fuel` bounds their number. -/
def arrays? : (fuel : Nat) → TypeText → List Char → Option (TypeText × List Char)
  | 0, _, _ => none
  | fuel + 1, element, text =>
    match text with
    | '[' :: rest =>
      match length? rest with
      | some (length, rest) => arrays? fuel (.array element length) rest
      | none => none
    | text => some (element, text)

/-- Reads a list of members up to and with the parenthesis that closes it; `fuel` bounds
their number. -/
def members? (member? : List Char → Option (TypeText × List Char)) :
    (fuel : Nat) → List Char → Option (List TypeText × List Char)
  | 0, _ => none
  | fuel + 1, text => do
    let (first, rest) ← member? text
    match rest with
    | ',' :: rest =>
      match dropBlanks rest with
      | ')' :: rest => some ([first], rest)
      | rest => (members? member? fuel rest).map fun (others, rest) =>
        (first :: others, rest)
    | rest =>
      match dropBlanks rest with
      | ')' :: rest => some ([first], rest)
      | _ => none

/-- A type at the start of a text, with so many levels of types at most: itself, the
members of a tuple, their members and so on. Array sizes are not levels. -/
def type? : (levels : Nat) → List Char → Option (TypeText × List Char)
  | 0, _ => none
  | levels + 1, text => do
    let (stem, rest) ←
      match tupleStart? text with
      | some inner =>
        match dropBlanks inner with
        | ')' :: rest => some (.tuple [], rest)
        | inner =>
          (members? (type? levels) (inner.length + 1) inner).map fun (members, rest) =>
            (.tuple members, rest)
      | none => named? text
    arrays? (rest.length + 1) stem rest

def levelLimit : Nat := 80

def parse? (text : String) : Option TypeText :=
  match type? levelLimit text.toList with
  | some (type, []) => some type
  | _ => none

end TypeText

end ContractCode.Abi
