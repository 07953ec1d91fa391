import ContractCode.Abi.Parameter

/-!
The interface document of a contract: a list of its constructor, functions, events and
errors, and of what it does with other calls. A document is read as a whole, so one item
that is not as it should be makes all of it unreadable. Members that an item does not
have are ignored.
-/

namespace ContractCode.Abi

inductive Item where
  | constructor (inputs : List Parameter)
  | function (name : String) (inputs outputs : List Parameter)
  | event (name : String) (inputs : List Parameter) (anonymous : Bool)
  | error (name : String) (inputs : List Parameter)
  | fallback
  | receive
deriving Repr

namespace Item

def isConstructor : Item → Bool
  | .constructor _ => true
  | _ => false

def isFallback : Item → Bool
  | .fallback => true
  | _ => false

def isReceive : Item → Bool
  | .receive => true
  | _ => false

/-! ## Members -/

def mutabilities : List String := ["pure", "view", "nonpayable", "payable"]

/-- A name of which an object with no members may stand for nothing under it. -/
def mutabilityName? : Json → Option String
  | .object [(name, .object [])] => some name
  | json => json.name?

def mutability? (json : Json) : Option String :=
  (mutabilityName? json).bind fun name =>
    if mutabilities.contains name then some name else none

/-- What a call may do is said by one member, or by two older ones that exclude each
other. -/
def hasMutability (members : List (String × Json)) : Bool :=
  match Json.optional? mutability? (members.lookup "stateMutability"),
    Json.optional? Json.bool? (members.lookup "payable"),
    Json.optional? Json.bool? (members.lookup "constant") with
  | some mutability, some payable, some constant =>
    mutability.isSome || !(payable.getD false && constant.getD false)
  | _, _, _ => false

def nameIn? (members : List (String × Json)) : Option String :=
  ((members.lookup "name").bind Json.text?).filter Parameter.isDocumentName

def parametersIn? (indexable : Bool) (key : String) (members : List (String × Json)) :
    Option (List Parameter) :=
  (members.lookup key).bind (Json.list? (Parameter.ofJson? indexable))

/-! ## Kinds of items -/

/-- Reads the members of an item of one kind. -/
def ofMembers? (kind : String) (members : List (String × Json)) : Option Item :=
  match kind with
  | "constructor" => do
    let inputs ← parametersIn? false "inputs" members
    if hasMutability members then some (.constructor inputs) else none
  | "function" => do
    let name ← nameIn? members
    let inputs ← parametersIn? false "inputs" members
    let outputs ← parametersIn? false "outputs" members
    if hasMutability members then some (.function name inputs outputs) else none
  | "event" => do
    let name ← nameIn? members
    let inputs ← parametersIn? true "inputs" members
    let anonymous ← (members.lookup "anonymous").bind Json.bool?
    return .event name inputs anonymous
  | "error" => do
    let name ← nameIn? members
    let inputs ← parametersIn? false "inputs" members
    return .error name inputs
  | "fallback" => if hasMutability members then some .fallback else none
  | "receive" => if hasMutability members then some .receive else none
  | _ => none

/-- The members of an item from its fields in their order. Only events and errors are
given like that. -/
def membersOfFields? (kind : String) (fields : List Json) :
    Option (List (String × Json)) :=
  match kind, fields with
  | "event", [name, inputs, anonymous] =>
    some [("name", name), ("inputs", inputs), ("anonymous", anonymous)]
  | "error", [name, inputs] => some [("name", name), ("inputs", inputs)]
  | _, _ => none

/-- Reads an item from an object, or from an array of its kind and its fields. -/
def ofJson? : Json → Option Item
  | .object members => do
    let kind ← (members.lookup "type").bind Json.text?
    ofMembers? kind members
  | .array (kind :: fields) => do
    let kind ← kind.text?
    ofMembers? kind (← membersOfFields? kind fields)
  | _ => none

end Item

structure Document where
  items : List Item
deriving Repr

namespace Document

/-- A contract has at most one constructor and one answer to each kind of other call. -/
def isConsistent (items : List Item) : Bool :=
  items.countP Item.isConstructor ≤ 1 && items.countP Item.isFallback ≤ 1 &&
    items.countP Item.isReceive ≤ 1

def ofJson? (json : Json) : Option Document := do
  let items ← Json.list? Item.ofJson? json
  if isConsistent items then some ⟨items⟩ else none

/-- The parameters of the constructor; a contract without a constructor has none. -/
def constructorInputs (document : Document) : List Parameter :=
  (document.items.findSome? fun item =>
    match item with
    | .constructor inputs => some inputs
    | _ => none).getD []

end Document

end ContractCode.Abi
