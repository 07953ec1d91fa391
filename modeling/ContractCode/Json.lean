import ContractCode.Dictionary

/-!
JSON values, and readers and writers for the shapes that documents are made of: texts,
numbers, lists, dictionaries and enumerated names. A whole number is told apart from a
number that was written with a point or an exponent or that does not fit 64 bits; only
whole numbers count as numbers of bytes or positions. Each reader comes with the
statement that it undoes its writer.
-/

namespace ContractCode

inductive Json where
  | null
  | bool (value : Bool)
  /-- A whole number of at most 64 bits. -/
  | integer (value : Int)
  /-- Any other number: `mantissa` divided by ten to the power `exponent`. -/
  | decimal (mantissa : Int) (exponent : Nat)
  | text (value : String)
  | array (items : List Json)
  | object (members : List (String × Json))
deriving Repr, BEq, Inhabited

namespace Json

/-! ## Single values -/

def text? : Json → Option String
  | .text value => some value
  | _ => none

def bool? : Json → Option Bool
  | .bool value => some value
  | _ => none

def natural? : Json → Option Nat
  | .integer (.ofNat value) => some value
  | _ => none

def ofNatural (value : Nat) : Json := .integer (.ofNat value)

def word? (json : Json) : Option UInt32 :=
  json.natural?.bind fun value =>
    if value < UInt32.size then some (UInt32.ofNat value) else none

def ofWord (value : UInt32) : Json := ofNatural value.toNat

/-- The name of a value that is one of a few: its text, or an object with the name as
its only key and nothing under it. -/
def name? : Json → Option String
  | .text name => some name
  | .object [(name, .null)] => some name
  | _ => none

@[simp] theorem text?_text (value : String) : (Json.text value).text? = some value := rfl

@[simp] theorem name?_text (value : String) : (Json.text value).name? = some value := rfl

@[simp] theorem natural?_ofNatural (value : Nat) :
    (ofNatural value).natural? = some value := rfl

@[simp] theorem word?_ofWord (value : UInt32) : (ofWord value).word? = some value := by
  have small : value.toNat < UInt32.size := value.toNat_lt_size
  simp only [word?, ofWord, natural?_ofNatural, Option.bind_some, if_pos small,
    UInt32.ofNat_toNat]

/-! ## Optional values -/

/-- A value that may be missing or null, which both stand for none. -/
def optional? (read : Json → Option α) : Option Json → Option (Option α)
  | none => some none
  | some .null => some none
  | some json => (read json).map some

def defaulted? (default : α) (read : Json → Option α) : Option Json → Option α
  | none => some default
  | some json => read json

@[simp] theorem optional?_none (read : Json → Option α) :
    optional? read none = some none := rfl

@[simp] theorem optional?_text (value : String) :
    optional? Json.text? (some (.text value)) = some (some value) := rfl

/-- A value that is there or not is read back, provided that it is not written as null. -/
theorem optional?_map {read : Json → Option α} {write : α → Json}
    (undoes : ∀ value, read (write value) = some value)
    (notNull : ∀ value, write value ≠ .null)
    (value : Option α) : optional? read (value.map write) = some value := by
  cases value with
  | none => rfl
  | some value =>
    rw [Option.map_some, optional?, undoes value]
    · rfl
    · exact notNull value

@[simp] theorem defaulted?_none (default : α) (read : Json → Option α) :
    defaulted? default read none = some default := rfl

@[simp] theorem defaulted?_some (default : α) (read : Json → Option α) (json : Json) :
    defaulted? default read (some json) = read json := rfl

/-! ## Lists and dictionaries -/

def readAll (read : α → Option β) : List α → Option (List β)
  | [] => some []
  | item :: rest =>
    match read item, readAll read rest with
    | some value, some values => some (value :: values)
    | _, _ => none

def list? (read : Json → Option α) : Json → Option (List α)
  | .array items => readAll read items
  | _ => none

def ofList (write : α → Json) (values : List α) : Json := .array (values.map write)

def dictionary? (read : Json → Option α) : Json → Option (Dictionary α)
  | .object members =>
    (readAll (fun member => (read member.2).map fun value => (member.1, value))
      members).map
      Dictionary.ofList
  | _ => none

def ofDictionary (write : α → Json) (dictionary : Dictionary α) : Json :=
  .object (dictionary.map write).entries

theorem readAll_map {read : β → Option α} {write : α → β} {values : List α}
    (undoes : ∀ value ∈ values, read (write value) = some value) :
    readAll read (values.map write) = some values := by
  induction values with
  | nil => rfl
  | cons value values induction =>
    simp [readAll, undoes value List.mem_cons_self,
      induction fun value member => undoes value (List.mem_cons_of_mem _ member)]

theorem list?_ofList {read : Json → Option α} {write : α → Json}
    (undoes : ∀ value, read (write value) = some value) (values : List α) :
    list? read (ofList write values) = some values :=
  readAll_map fun value _ => undoes value

theorem dictionary?_ofDictionary {read : Json → Option α} {write : α → Json}
    (undoes : ∀ value, read (write value) = some value) (dictionary : Dictionary α) :
    dictionary? read (ofDictionary write dictionary) = some dictionary := by
  simp only [ofDictionary, dictionary?, Dictionary.map]
  have entries : readAll (fun member : String × Json =>
      (read member.2).map fun value => (member.1, value))
      (dictionary.entries.map fun entry => (entry.1, write entry.2)) =
        some dictionary.entries :=
    readAll_map fun entry _ => by simp [undoes]
  simp [entries, Dictionary.ofList_entries]

end Json

end ContractCode
