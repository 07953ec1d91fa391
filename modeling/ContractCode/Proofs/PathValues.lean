import ContractCode.Configuration.Path

/-! # Values at paths

A value that is put where a path leads is found there afterwards, and paths that part at
some key do not see each other. So what a configuration has at a path is what was put
there last.
-/

namespace ContractCode.Configuration

variable {value whole : Json} {name : String} {step : Step} {path other : List Step}
  {members : List (String × Json)}

/-- The value where a path leads, if there is one. -/
def valueAt? : (path : List Step) → (whole : Json) → Option Json
  | [], whole => some whole
  | .key key :: path, whole => ((membersOf whole).lookup key).bind (valueAt? path)
  | .index position :: path, whole =>
    ((placeOf? position (itemsOf whole).length).bind fun place =>
      (itemsOf whole)[place]?).bind
      (valueAt? path)

/-- The path leads somewhere: it has no position before the start of the list there. -/
def Leads : (path : List Step) → (whole : Json) → Prop
  | [], _ => True
  | .key key :: path, whole => Leads path (((membersOf whole).lookup key).getD .null)
  | .index position :: path, whole =>
    ∃ place, placeOf? position (itemsOf whole).length = some place ∧
      Leads path ((itemsOf whole).getD place .null)

/-- The paths part at two keys. -/
inductive Apart : (path other : List Step) → Prop
  | here {name otherName : String} {path other : List Step}
      (different : otherName ≠ name) :
      Apart (.key name :: path) (.key otherName :: other)
  | after {path other : List Step} (step : Step) (apart : Apart path other) :
      Apart (step :: path) (step :: other)

theorem leads_of_keys (keys : ∀ step ∈ path, ∃ name, step = .key name) (whole : Json) :
    Leads path whole := by
  induction path generalizing whole with
  | nil => trivial
  | cons step path induction =>
      rw [List.forall_mem_cons] at keys
      rcases keys.1 with ⟨name, rfl⟩
      exact induction keys.2 _

/-! ## Members -/

theorem lookup_withMember_self (name : String) (value : Json)
    (members : List (String × Json)) :
    (withMember name value members).lookup name = some value := by
  have removed : (members.filter fun member => member.1 ≠ name).lookup name = none := by
    rw [List.lookup_eq_none_iff]
    intro member kept
    have different : member.1 ≠ name := by simpa using (List.mem_filter.mp kept).2
    exact bne_iff_ne.mpr different.symm
  rw [withMember, List.lookup_append, removed, Option.none_or, List.lookup_cons_self]

theorem lookup_withMember_of_ne {otherName : String} (different : otherName ≠ name)
    (value : Json) (members : List (String × Json)) :
    (withMember name value members).lookup otherName = members.lookup otherName := by
  have kept : (members.filter fun member => member.1 ≠ name).lookup otherName =
      members.lookup otherName := by
    induction members with
    | nil => rfl
    | cons member members induction =>
        rcases member with ⟨key, content⟩
        rw [List.filter_cons]
        split
        · rw [List.lookup_cons, List.lookup_cons, induction]
        · rename_i removed
          have same : key = name := by simpa using removed
          rw [induction, List.lookup_cons, same, beq_false_of_ne different]
  rw [withMember, List.lookup_append, kept, List.lookup_cons, beq_false_of_ne different,
    List.lookup_nil, Option.or_none]

/-! ## Items -/

theorem lt_length_reachingTo (place : Nat) (items : List Json) :
    place < (reachingTo place items).length := by
  rw [reachingTo, List.length_append, List.length_replicate]
  omega

/-- A position is the same place after the list has been made to reach it. -/
theorem placeOf?_reachingTo {position : Int} {items : List Json} {place : Nat}
    (found : placeOf? position items.length = some place) :
    placeOf? position (reachingTo place items).length = some place := by
  cases position with
  | ofNat position => exact found
  | negSucc fromEnd =>
      simp only [placeOf?, Option.ite_none_right_eq_some, Option.some.injEq] at found
      have inside : place + 1 ≤ items.length := by omega
      rw [reachingTo, Nat.sub_eq_zero_of_le inside, List.replicate_zero, List.append_nil]
      simp only [placeOf?, Option.ite_none_right_eq_some, Option.some.injEq]
      exact found

/-- A list that reaches a place has there what it had, or null. -/
theorem getD_reachingTo (place : Nat) (items : List Json) :
    (reachingTo place items).getD place .null = items.getD place .null := by
  rw [reachingTo, List.getD_eq_getElem?_getD, List.getD_eq_getElem?_getD]
  by_cases inside : place < items.length
  · rw [List.getElem?_append_left inside]
  · have outside : items.length ≤ place := Nat.le_of_not_lt inside
    have filled : place - items.length < place + 1 - items.length := by omega
    rw [List.getElem?_append_right outside, List.getElem?_replicate_of_lt filled,
      List.getElem?_eq_none outside]
    rfl

section Items

variable {position : Int} {place : Nat}

theorem assign_index (found : placeOf? position (itemsOf whole).length = some place) :
    assign value (.index position :: path) whole =
      .array ((reachingTo place (itemsOf whole)).set place
        (assign value path ((itemsOf whole).getD place .null))) := by
  simp only [assign, found, getD_reachingTo]

theorem valueAt?_index (found : placeOf? position (itemsOf whole).length = some place) :
    valueAt? (.index position :: path) whole =
      (itemsOf whole)[place]?.bind (valueAt? path) := by
  simp only [valueAt?, found, Option.bind_some]

/-- What is behind a position after a value has been put there. -/
theorem valueAt?_index_assign
    (found : placeOf? position (itemsOf whole).length = some place) :
    valueAt? (.index position :: other) (assign value (.index position :: path) whole) =
      valueAt? other (assign value path ((itemsOf whole).getD place .null)) := by
  have foundAfter : placeOf? position
      (itemsOf (assign value (.index position :: path) whole)).length = some place := by
    rw [assign_index found, itemsOf, List.length_set]
    exact placeOf?_reachingTo found
  rw [valueAt?_index foundAfter, assign_index found, itemsOf,
    List.getElem?_set_self (lt_length_reachingTo place (itemsOf whole)), Option.bind_some]

end Items

/-! ## Putting and finding -/

/-- A value is found where it has been put. -/
theorem valueAt?_assign (leads : Leads path whole) :
    valueAt? path (assign value path whole) = some value := by
  induction path generalizing whole with
  | nil => rfl
  | cons step path induction =>
      cases step with
      | key name =>
          simp only [assign, valueAt?, membersOf, lookup_withMember_self,
            Option.bind_some]
          exact induction leads
      | index position =>
          rcases leads with ⟨place, found, leads⟩
          rw [valueAt?_index_assign found]
          exact induction leads

theorem valueAt?_null (step : Step) (path : List Step) :
    valueAt? (step :: path) .null = none := by
  cases step <;> simp [valueAt?, membersOf, itemsOf]

theorem Apart.valueAt?_getD (apart : Apart path other) (found : Option Json) :
    valueAt? other (found.getD .null) = found.bind (valueAt? other) := by
  cases found with
  | some value => rfl
  | none => cases apart <;> exact valueAt?_null _ _

/-- Putting a value changes nothing at the paths that part from its own. -/
theorem valueAt?_assign_of_apart (apart : Apart path other) (value whole : Json) :
    valueAt? other (assign value path whole) = valueAt? other whole := by
  induction apart generalizing whole with
  | here different =>
      simp only [assign, valueAt?, membersOf, lookup_withMember_of_ne different]
  | after step apart induction =>
      cases step with
      | key name =>
          simp only [assign, valueAt?, membersOf, lookup_withMember_self,
            Option.bind_some]
          rw [induction, apart.valueAt?_getD]
      | index position =>
          cases found : placeOf? position (itemsOf whole).length with
          | none => simp only [assign, found]
          | some place =>
              rw [valueAt?_index_assign found, induction, List.getD_eq_getElem?_getD,
                apart.valueAt?_getD, valueAt?_index found]

end ContractCode.Configuration
