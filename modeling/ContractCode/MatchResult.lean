import ContractCode.PopulatedCode

/-!
What a comparison finds, and its document.
-/

namespace ContractCode

/-! ## Status -/

inductive MatchStatus where
  /-- The code is the same with its metadata, which has a hash of the sources. -/
  | exactMatch
  /-- The code does the same, or is the same without such a hash. -/
  | equivalent
  | different
deriving Repr, DecidableEq

namespace MatchStatus

def name : MatchStatus → String
  | .exactMatch => "exact_match"
  | .equivalent => "match"
  | .different => "none"

def ofName? : String → Option MatchStatus
  | "exact_match" => some .exactMatch
  | "match" => some .equivalent
  | "none" => some .different
  | _ => none

def toJson (status : MatchStatus) : Json := .text status.name

def ofJson? (json : Json) : Option MatchStatus := json.name?.bind ofName?

@[simp] theorem ofJson?_toJson (status : MatchStatus) :
    ofJson? status.toJson = some status := by
  cases status <;> rfl

end MatchStatus

/-! ## Mode -/

inductive MatchMode where
  /-- With what the compiler tells about the code. -/
  | artifacts
  /-- From the codes alone. -/
  | heuristic
deriving Repr, DecidableEq

namespace MatchMode

def name : MatchMode → String
  | .artifacts => "artifacts"
  | .heuristic => "heuristic"

def ofName? : String → Option MatchMode
  | "artifacts" => some .artifacts
  | "heuristic" => some .heuristic
  | _ => none

def toJson (mode : MatchMode) : Json := .text mode.name

def ofJson? (json : Json) : Option MatchMode := json.name?.bind ofName?

@[simp] theorem ofJson?_toJson (mode : MatchMode) : ofJson? mode.toJson = some mode := by
  cases mode <;> rfl

end MatchMode

/-! ## Result -/

structure MatchResult where
  status : MatchStatus
  transformations : List Transformation
  values : RecordedValues
  libraryMap : Option (Dictionary String)
  message : Option String
  mode : MatchMode
deriving Repr, DecidableEq

namespace MatchResult

def plain (status : MatchStatus) (mode : MatchMode) (message : Option String) :
    MatchResult :=
  ⟨status, [], {}, none, message, mode⟩

def isMatch (result : MatchResult) : Bool := result.status != .different

def libraryMapOf (values : RecordedValues) : Option (Dictionary String) :=
  if values.libraries.isEmpty then none else some values.libraryMap

/-- Every library with a value has it in the map. -/
theorem exists_libraryMapOf {values : RecordedValues} {name : String} {value : Bytes}
    (found : values.libraries.get? name = some value) :
    ∃ libraryMap, libraryMapOf values = some libraryMap ∧
      libraryMap.get? name = some (Hex.render value) := by
  refine ⟨values.libraryMap, ?_, ?_⟩
  · rw [libraryMapOf, Dictionary.isEmpty_of_get? found]
    rfl
  · rw [RecordedValues.libraryMap, Dictionary.get?_map, found]
    rfl

def ofPopulated (status : MatchStatus) (populated : PopulatedCode)
    (message : Option String) :
    MatchResult :=
  ⟨status, populated.transformations, populated.values,
    libraryMapOf populated.values, message, .artifacts⟩

/-! ## The document -/

def libraryMapToJson (libraryMap : Dictionary String) : Json :=
  .ofDictionary .text libraryMap

def toJson (result : MatchResult) : Json :=
  .object <| [
    ("match", result.status.toJson),
    ("transformations", .ofList Transformation.toJson result.transformations),
    ("transformationValues", result.values.toJson)] ++
    Json.member? "libraryMap" libraryMapToJson result.libraryMap ++
    Json.member? "message" .text result.message ++
    [("mode", result.mode.toJson)]

def ofJson? (json : Json) : Option MatchResult := do
  match ← json.fields?
      ["match", "transformations", "transformationValues", "libraryMap", "message",
        "mode"] with
  | [some status, some transformations, some values, libraryMap, message, some mode] =>
    let status ← MatchStatus.ofJson? status
    let transformations ← Json.list? Transformation.ofJson? transformations
    let values ← RecordedValues.ofJson? values
    let libraryMap ← Json.optional? (Json.dictionary? Json.text?) libraryMap
    let message ← Json.optional? Json.text? message
    let mode ← MatchMode.ofJson? mode
    return ⟨status, transformations, values, libraryMap, message, mode⟩
  | _ => none

@[simp] theorem ofJson?_toJson (result : MatchResult) :
    ofJson? result.toJson = some result := by
  have transformations :=
    Json.list?_ofList Transformation.ofJson?_toJson result.transformations
  have libraryMap : Json.optional? (Json.dictionary? Json.text?)
      (result.libraryMap.map libraryMapToJson) = some result.libraryMap :=
    Json.optional?_map (Json.dictionary?_ofDictionary Json.text?_text) nofun _
  have message := Json.optional?_map Json.text?_text nofun result.message
  simp [ofJson?, toJson, List.lookup_append, List.lookup_cons, transformations,
    libraryMap, message]

end MatchResult

end ContractCode
