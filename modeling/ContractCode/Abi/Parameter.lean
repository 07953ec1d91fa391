import ContractCode.Abi.Type
import ContractCode.Json.Record

/-!
Parameters in a contract interface document. A parameter has a name and the text of a
type, and a tuple lists its components. Only what the arguments depend on is kept; the
rest is checked and dropped.
-/

namespace ContractCode.Abi

inductive Parameter where
  | mk (type : String) (components : List Parameter)
deriving Repr

namespace Parameter

def type : Parameter → String
  | .mk type _ => type

def components : Parameter → List Parameter
  | .mk _ components => components

/-! ## Types

With components the type is the tuple of their types, in the array sizes of the type
text; what the text names is not looked at. -/

def typeOf? (text : String) (components : List AbiType) : Option AbiType :=
  (TypeText.parse? text).bind fun text =>
    if components.isEmpty then AbiType.ofText? text
    else some ((AbiType.tuple components).withArraysOf text)

mutual

def resolve? : Parameter → Option AbiType
  | .mk type components => (resolveAll? components).bind fun components =>
    typeOf? type components

def resolveAll? : List Parameter → Option (List AbiType)
  | [] => some []
  | parameter :: parameters => do
    let type ← resolve? parameter
    let types ← resolveAll? parameters
    return type :: types

end

/-! ## Documents -/

/-- A name in a document: empty, or letters, digits, `$` and `_` without a digit in
front. -/
def isDocumentName (name : String) : Bool :=
  name.toList.isEmpty || isName name.toList

/-- The type text is written as its components ask for: with components it only has to
start like a tuple. -/
def isTypeText (text : String) (components : List Parameter) : Bool :=
  if components.isEmpty then (TypeText.parse? text).isSome
  else "tuple".toList.isPrefixOf text.toList

/-- Checks the fields of a parameter. Whether it is indexed can be said of the
parameters of an event only. -/
def ofFields? (indexable : Bool) (name type indexed internalType : Option Json)
    (components : List Parameter) : Option Parameter := do
  let name ← Json.defaulted? "" Json.text? name
  let type ← type.bind Json.text?
  let indexed ← Json.optional? Json.bool? indexed
  let _ ← Json.optional? Json.text? internalType
  if isDocumentName name && isTypeText type components &&
      (indexable || indexed.isNone) then
    some (.mk type components)
  else none

mutual

def ofJson? (indexable : Bool) : Json → Option Parameter
  | .object members => do
    let components ← componentsIn? members
    ofFields? indexable (members.lookup "name") (members.lookup "type")
      (members.lookup "indexed")
      (members.lookup "internalType") components
  | .array items =>
    if 5 < items.length then none
    else do
      let components ← componentsAt? 4 items
      ofFields? indexable items[0]? items[1]? items[2]? items[3]? components
  | _ => none

/-- Reads a list of components, none of which can be indexed. -/
def listOfJson? : Json → Option (List Parameter)
  | .array items => allOfJson? items
  | _ => none

def allOfJson? : List Json → Option (List Parameter)
  | [] => some []
  | item :: items => do
    let parameter ← ofJson? false item
    let parameters ← allOfJson? items
    return parameter :: parameters

def componentsIn? : List (String × Json) → Option (List Parameter)
  | [] => some []
  | (name, value) :: members =>
    if name = "components" then listOfJson? value else componentsIn? members

def componentsAt? : (index : Nat) → List Json → Option (List Parameter)
  | _, [] => some []
  | 0, value :: _ => listOfJson? value
  | index + 1, _ :: items => componentsAt? index items

end

end Parameter

end ContractCode.Abi
