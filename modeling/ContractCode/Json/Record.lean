import ContractCode.Json

/-!
Records in JSON. A record is an object with a member for each field, or an array of its
fields in their order, where fields at the end may be missing. The fields come back in
the order of the given names, and each reader decides what a missing one means.
-/

namespace ContractCode.Json

/-- The items of an array as fields, of which the last ones may be missing. -/
def positional? (names : List String) (items : List Json) : Option (List (Option Json)) :=
  if items.length ≤ names.length then
    some (items.map some ++ List.replicate (names.length - items.length) none)
  else none

/-- The fields of a record; members of other names are ignored. -/
def fields? (names : List String) : Json → Option (List (Option Json))
  | .object members => some (names.map fun name => members.lookup name)
  | .array items => positional? names items
  | _ => none

/-- The fields of a record that has no members of other names. -/
def knownFields? (names : List String) : Json → Option (List (Option Json))
  | .object members =>
    if members.all fun member => names.contains member.1 then
      some (names.map fun name => members.lookup name)
    else none
  | .array items => positional? names items
  | _ => none

def member? (name : String) (write : α → Json) : Option α → List (String × Json)
  | none => []
  | some value => [(name, write value)]

@[simp] theorem fields?_object (names : List String) (members : List (String × Json)) :
    fields? names (.object members) =
      some (names.map fun name => members.lookup name) := rfl

@[simp] theorem lookup_member?_self (name : String) (write : α → Json)
    (value : Option α) :
    (member? name write value).lookup name = value.map write := by
  cases value with
  | none => rfl
  | some value => simp [member?]

@[simp] theorem lookup_member?_of_ne {name other : String} (different : other ≠ name)
    (write : α → Json) (value : Option α) :
    (member? name write value).lookup other = none := by
  cases value with
  | none => rfl
  | some value => simp [member?, List.lookup_cons, beq_false_of_ne different]

end ContractCode.Json
