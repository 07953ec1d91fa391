import ContractCode.Bytes.Hex
import ContractCode.Json.Record

/-!
The values that were found on chain for compiled code. They are grouped by what they
are, and by the id of a metadata chunk, a library or an immutable.
-/

namespace ContractCode

structure RecordedValues where
  cborAuxdata : Dictionary Bytes := .empty
  constructorArguments : Option Bytes := none
  libraries : Dictionary Bytes := .empty
  immutables : Dictionary Bytes := .empty
  callProtection : Option Bytes := none
deriving Repr, DecidableEq

namespace RecordedValues

/-! ## Recording

A library or an immutable has one value wherever it is used, so the first one is kept. -/

def addCborAuxdata (values : RecordedValues) (id : String) (value : Bytes) :
    RecordedValues :=
  { values with cborAuxdata := values.cborAuxdata.insert id value }

def addConstructorArguments (values : RecordedValues) (value : Bytes) : RecordedValues :=
  { values with constructorArguments := some value }

def addLibrary (values : RecordedValues) (name : String) (value : Bytes) :
    RecordedValues :=
  { values with libraries := values.libraries.insertNew name value }

def addImmutable (values : RecordedValues) (id : String) (value : Bytes) :
    RecordedValues :=
  { values with immutables := values.immutables.insertNew id value }

def addCallProtection (values : RecordedValues) (value : Bytes) : RecordedValues :=
  { values with callProtection := some value }

def libraryMap (values : RecordedValues) : Dictionary String :=
  values.libraries.map Hex.render

/-! ## The document

Groups without values are left out. -/

def bytesToJson (value : Bytes) : Json := .text (Hex.render value)

def bytesOfJson? (json : Json) : Option Bytes := json.text?.bind Hex.parse?

@[simp] theorem bytesOfJson?_bytesToJson (value : Bytes) :
    bytesOfJson? (bytesToJson value) = some value := by
  simp [bytesOfJson?, bytesToJson, Hex.parse?_render]

/-- The member of a group, unless the group is empty. -/
def groupMember (name : String) (group : Dictionary Bytes) : List (String × Json) :=
  if group.isEmpty then [] else [(name, .ofDictionary bytesToJson group)]

def toJson (values : RecordedValues) : Json :=
  .object <|
    groupMember "cborAuxdata" values.cborAuxdata ++
    Json.member? "constructorArguments" bytesToJson values.constructorArguments ++
    groupMember "libraries" values.libraries ++
    groupMember "immutables" values.immutables ++
    Json.member? "callProtection" bytesToJson values.callProtection

def groupOfJson? (json : Option Json) : Option (Dictionary Bytes) :=
  Json.defaulted? .empty (Json.dictionary? bytesOfJson?) json

def ofJson? (json : Json) : Option RecordedValues := do
  match ← json.fields?
      ["cborAuxdata", "constructorArguments", "libraries", "immutables",
        "callProtection"] with
  | [cborAuxdata, constructorArguments, libraries, immutables, callProtection] =>
    let cborAuxdata ← groupOfJson? cborAuxdata
    let constructorArguments ← Json.optional? bytesOfJson? constructorArguments
    let libraries ← groupOfJson? libraries
    let immutables ← groupOfJson? immutables
    let callProtection ← Json.optional? bytesOfJson? callProtection
    return ⟨cborAuxdata, constructorArguments, libraries, immutables, callProtection⟩
  | _ => none

@[simp] theorem lookup_groupMember_of_ne {name other : String} (different : other ≠ name)
    (group : Dictionary Bytes) : (groupMember name group).lookup other = none := by
  rw [groupMember]
  split
  · rfl
  · simp [List.lookup_cons, beq_false_of_ne different]

/-- A group is read back whether it is written or left out. -/
@[simp] theorem groupOfJson?_lookup (name : String) (group : Dictionary Bytes) :
    groupOfJson? ((groupMember name group).lookup name) = some group := by
  rw [groupMember]
  split
  · rename_i isEmpty
    rw [Dictionary.eq_empty_of_isEmpty isEmpty]
    rfl
  · rw [List.lookup_cons_self]
    exact Json.dictionary?_ofDictionary bytesOfJson?_bytesToJson group

@[simp] theorem ofJson?_toJson (values : RecordedValues) :
    ofJson? values.toJson = some values := by
  have bytes (value : Option Bytes) :
      Json.optional? bytesOfJson? (value.map bytesToJson) = some value :=
    Json.optional?_map bytesOfJson?_bytesToJson nofun value
  simp [ofJson?, toJson, List.lookup_append, bytes]

end RecordedValues

end ContractCode
