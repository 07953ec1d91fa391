import ContractCode.Bytes.Hex
import ContractCode.Json.Record

/-!
The log of what was done to compiled code. A transformation says where, how and why the
code was changed, and what the new bytes belong to.
-/

namespace ContractCode

/-! ## How -/

inductive TransformationKind where
  | insert | replace
deriving Repr, DecidableEq

namespace TransformationKind

def name : TransformationKind → String
  | .insert => "insert"
  | .replace => "replace"

def ofName? : String → Option TransformationKind
  | "insert" => some .insert
  | "replace" => some .replace
  | _ => none

def toJson (kind : TransformationKind) : Json := .text kind.name

def ofJson? (json : Json) : Option TransformationKind := json.name?.bind ofName?

@[simp] theorem ofJson?_toJson (kind : TransformationKind) :
    ofJson? kind.toJson = some kind := by
  cases kind <;> rfl

end TransformationKind

/-! ## Why -/

inductive TransformationReason where
  | callProtection | cborAuxdata | constructorArguments | immutable | library
deriving Repr, DecidableEq

namespace TransformationReason

def name : TransformationReason → String
  | .callProtection => "callProtection"
  | .cborAuxdata => "cborAuxdata"
  | .constructorArguments => "constructorArguments"
  | .immutable => "immutable"
  | .library => "library"

def ofName? : String → Option TransformationReason
  | "callProtection" => some .callProtection
  | "cborAuxdata" => some .cborAuxdata
  | "constructorArguments" => some .constructorArguments
  | "immutable" => some .immutable
  | "library" => some .library
  | _ => none

def toJson (reason : TransformationReason) : Json := .text reason.name

def ofJson? (json : Json) : Option TransformationReason := json.name?.bind ofName?

@[simp] theorem ofJson?_toJson (reason : TransformationReason) :
    ofJson? reason.toJson = some reason := by
  cases reason <;> rfl

end TransformationReason

/-! ## The record -/

structure Transformation where
  kind : TransformationKind
  reason : TransformationReason
  offset : Nat
  id : Option String
deriving Repr, DecidableEq

namespace Transformation

/-- The deployed address took the place of the zero address at the start of a library. -/
def callProtection (offset : Nat) : Transformation :=
  ⟨.replace, .callProtection, offset, none⟩

/-- The chunk on chain, or nothing, took the place of a metadata chunk. -/
def cborAuxdata (offset : Nat) (id : String) : Transformation :=
  ⟨.replace, .cborAuxdata, offset, some id⟩

/-- Constructor arguments follow the code. -/
def constructorArguments (offset : Nat) : Transformation :=
  ⟨.insert, .constructorArguments, offset, none⟩

/-- The deployed value took the place of the bytes reserved for an immutable. -/
def replaceImmutable (offset : Nat) (id : String) : Transformation :=
  ⟨.replace, .immutable, offset, some id⟩

/-- The deployed value of an immutable was put behind the code. -/
def insertImmutable (offset : Nat) (id : String) : Transformation :=
  ⟨.insert, .immutable, offset, some id⟩

/-- The deployed address of a library took the place of its placeholder. -/
def library (offset : Nat) (id : String) : Transformation :=
  ⟨.replace, .library, offset, some id⟩

def toJson (transformation : Transformation) : Json :=
  .object <| [
    ("type", transformation.kind.toJson),
    ("reason", transformation.reason.toJson),
    ("offset", .ofNatural transformation.offset)] ++
      Json.member? "id" .text transformation.id

def ofJson? (json : Json) : Option Transformation := do
  match ← json.fields? ["type", "reason", "offset", "id"] with
  | [some kind, some reason, some offset, id] =>
    let kind ← TransformationKind.ofJson? kind
    let reason ← TransformationReason.ofJson? reason
    let offset ← offset.natural?
    let id ← Json.optional? Json.text? id
    return ⟨kind, reason, offset, id⟩
  | _ => none

@[simp] theorem ofJson?_toJson (transformation : Transformation) :
    ofJson? transformation.toJson = some transformation := by
  rcases transformation with ⟨kind, reason, offset, id⟩
  cases id <;> simp [ofJson?, toJson, Json.member?, List.lookup_cons]

end Transformation

end ContractCode
