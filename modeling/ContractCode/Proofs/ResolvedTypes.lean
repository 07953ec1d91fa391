import ContractCode.Abi.Document
import ContractCode.Proofs.ArgumentValues

/-! # The types of parameters

A type text has no array of length nought, so the type of a parameter has none. A type
without empty tuples then takes up words.
-/

namespace ContractCode.Abi

/-! ## Texts -/

namespace TypeText

variable {text rest : List Char} {length : Option Nat} {type element : TypeText}
  {types : List TypeText}

mutual

/-- No array in the text has the length nought. -/
def IsSized : TypeText → Prop
  | .name _ => True
  | .tuple members => AreSized members
  | .array element length => length ≠ some 0 ∧ IsSized element

def AreSized : List TypeText → Prop
  | [] => True
  | type :: types => IsSized type ∧ AreSized types

end

theorem length?_ne_zero (read : length? text = some (length, rest)) :
    length ≠ some 0 := by
  rw [length?] at read
  split at read
  · split at read
    · cases read
      exact (Option.some_ne_none 0).symm
    · dsimp only at read
      split at read
      · cases read
      · rename_i allowed
        cases read
        intro zero
        exact allowed (.inl (Option.some.inj zero))
  · cases read

theorem isSized_of_arrays? {fuel : Nat} (sized : IsSized element)
    (read : arrays? fuel element text = some (type, rest)) : IsSized type := by
  induction fuel generalizing element text with
  | zero => cases read
  | succ fuel induction =>
      rw [arrays?.eq_def] at read
      dsimp only at read
      split at read
      · split at read
        · rename_i length _ found
          have wrapped : IsSized (.array element length) := ⟨length?_ne_zero found, sized⟩
          exact induction wrapped read
        · cases read
      · cases read
        exact sized

theorem areSized_of_members? {member? : List Char → Option (TypeText × List Char)}
    {fuel : Nat}
    (each : ∀ text type rest, member? text = some (type, rest) → IsSized type)
    (read : members? member? fuel text = some (types, rest)) : AreSized types := by
  induction fuel generalizing text types rest with
  | zero => cases read
  | succ fuel induction =>
      rw [members?] at read
      rcases Option.bind_eq_some_iff.mp read with ⟨⟨first, after⟩, found, read⟩
      have sized := each _ _ _ found
      dsimp only at read
      split at read
      · split at read
        · cases read
          exact ⟨sized, trivial⟩
        · rcases Option.map_eq_some_iff.mp read with ⟨⟨others, last⟩, later, same⟩
          cases same
          exact ⟨sized, induction later⟩
      · split at read
        · cases read
          exact ⟨sized, trivial⟩
        · cases read

theorem isSized_of_named? (read : named? text = some (type, rest)) : IsSized type := by
  rw [named?] at read
  split at read
  · cases read
  · split at read <;> (cases read; trivial)
  · cases read
    trivial

theorem isSized_of_type? {levels : Nat} (read : type? levels text = some (type, rest)) :
    IsSized type := by
  induction levels generalizing text type rest with
  | zero => cases read
  | succ levels induction =>
      rw [type?] at read
      split at read
      · split at read
        · have empty : IsSized (.tuple []) := trivial
          exact isSized_of_arrays? empty read
        · rcases Option.bind_eq_some_iff.mp read with ⟨⟨stem, after⟩, found, read⟩
          rcases Option.map_eq_some_iff.mp found with ⟨⟨members, last⟩, listed, same⟩
          cases same
          apply isSized_of_arrays? _ read
          exact areSized_of_members? (fun _ _ _ member => induction member) listed
      · rcases Option.bind_eq_some_iff.mp read with ⟨⟨stem, after⟩, found, read⟩
        exact isSized_of_arrays? (isSized_of_named? found) read

theorem isSized_of_parse? {text : String} (read : parse? text = some type) :
    IsSized type := by
  rw [parse?] at read
  split at read
  · rename_i found
    cases read
    exact isSized_of_type? found
  · cases read

end TypeText

/-! ## Types -/

namespace AbiType

variable {text : TypeText} {type : AbiType}

mutual

/-- No array in the type has the length nought. -/
def HasLengths : AbiType → Prop
  | .array element => HasLengths element
  | .fixedArray element length => length ≠ 0 ∧ HasLengths element
  | .tuple components => AllHaveLengths components
  | _ => True

def AllHaveLengths : List AbiType → Prop
  | [] => True
  | type :: types => HasLengths type ∧ AllHaveLengths types

end

mutual

/-- Every tuple in the type has components. -/
def HasComponents : AbiType → Prop
  | .array element => HasComponents element
  | .fixedArray element _ => HasComponents element
  | .tuple components => components ≠ [] ∧ AllHaveComponents components
  | _ => True

def AllHaveComponents : List AbiType → Prop
  | [] => True
  | type :: types => HasComponents type ∧ AllHaveComponents types

end

mutual

theorem isSolid_of_hasLengths :
    (type : AbiType) → HasLengths type → HasComponents type → IsSolid type
  | .array element, lengths, components =>
      isSolid_of_hasLengths element lengths components
  | .fixedArray element _, lengths, components =>
      ⟨lengths.1, isSolid_of_hasLengths element lengths.2 components⟩
  | .tuple types, lengths, components =>
      ⟨components.1, areSolid_of_allHaveLengths types lengths components.2⟩
  | .address, _, _ | .function, _, _ | .bool, _, _ | .string, _, _ | .bytes, _, _
  | .fixedBytes _, _, _ | .uint _, _, _ | .int _, _, _ => trivial

theorem areSolid_of_allHaveLengths : (types : List AbiType) → AllHaveLengths types →
    AllHaveComponents types → AreSolid types
  | [], _, _ => trivial
  | type :: types, lengths, components =>
      ⟨isSolid_of_hasLengths type lengths.1 components.1,
        areSolid_of_allHaveLengths types lengths.2 components.2⟩

end

theorem hasLengths_arrayOf {length : Option Nat} (sized : length ≠ some 0)
    (element : HasLengths type) :
    HasLengths (arrayOf type length) := by
  cases length with
  | none => exact element
  | some length => exact ⟨fun zero => sized (congrArg some zero), element⟩

theorem hasLengths_of_ofSizedName? {name : List Char}
    (named : ofSizedName? name = some type) :
    HasLengths type := by
  rw [ofSizedName?] at named
  split at named
  · split at named
    · cases named
      trivial
    · cases named
  · split at named
    · split at named
      · cases named
        trivial
      · cases named
    · split at named
      · split at named
        · cases named
          trivial
        · cases named
      · cases named

theorem hasLengths_of_ofName? {name : String} (named : ofName? name = some type) :
    HasLengths type := by
  rw [ofName?.eq_def] at named
  split at named
  all_goals first | exact hasLengths_of_ofSizedName? named | (cases named; trivial)

mutual

theorem hasLengths_of_ofText? : (text : TypeText) → text.IsSized → ∀ {type : AbiType},
    ofText? text = some type → HasLengths type
  | .name _, _, _, named => hasLengths_of_ofName? (by rw [ofText?] at named; exact named)
  | .tuple members, sized, _, read => by
      rw [ofText?] at read
      rcases Option.map_eq_some_iff.mp read with ⟨types, found, same⟩
      cases same
      exact allHaveLengths_of_ofTexts? members sized found
  | .array element length, sized, _, read => by
      rw [ofText?] at read
      rcases Option.map_eq_some_iff.mp read with ⟨type, found, same⟩
      cases same
      exact hasLengths_arrayOf sized.1 (hasLengths_of_ofText? element sized.2 found)

theorem allHaveLengths_of_ofTexts? : (texts : List TypeText) → TypeText.AreSized texts →
    ∀ {types : List AbiType}, ofTexts? texts = some types → AllHaveLengths types
  | [], _, _, read => by
      cases read
      trivial
  | text :: texts, sized, _, read => by
      rw [ofTexts?] at read
      rcases Option.bind_eq_some_iff.mp read with ⟨type, first, read⟩
      rcases Option.bind_eq_some_iff.mp read with ⟨types, others, same⟩
      cases same
      exact ⟨hasLengths_of_ofText? text sized.1 first,
        allHaveLengths_of_ofTexts? texts sized.2 others⟩

end

theorem hasLengths_withArraysOf (lengths : HasLengths type) :
    (text : TypeText) → text.IsSized →
    HasLengths (type.withArraysOf text)
  | .name _, _ => lengths
  | .tuple _, _ => lengths
  | .array element _, sized =>
      hasLengths_arrayOf sized.1 (hasLengths_withArraysOf lengths element sized.2)

end AbiType

/-! ## Parameters -/

namespace Parameter

theorem hasLengths_of_typeOf? {text : String} {components : List AbiType} {type : AbiType}
    (lengths : AbiType.AllHaveLengths components)
    (read : typeOf? text components = some type) :
    type.HasLengths := by
  rw [typeOf?] at read
  rcases Option.bind_eq_some_iff.mp read with ⟨text, parsed, read⟩
  have sized := TypeText.isSized_of_parse? parsed
  split at read
  · exact AbiType.hasLengths_of_ofText? text sized read
  · have tuple : (AbiType.tuple components).HasLengths := lengths
    cases read
    exact AbiType.hasLengths_withArraysOf tuple text sized

mutual

theorem hasLengths_of_resolve? : (parameter : Parameter) → ∀ {type : AbiType},
    parameter.resolve? = some type → type.HasLengths
  | .mk text components, _, read => by
      rw [resolve?] at read
      rcases Option.bind_eq_some_iff.mp read with ⟨types, resolved, read⟩
      exact hasLengths_of_typeOf? (allHaveLengths_of_resolveAll? components resolved) read

theorem allHaveLengths_of_resolveAll? :
    (parameters : List Parameter) → ∀ {types : List AbiType},
    resolveAll? parameters = some types → AbiType.AllHaveLengths types
  | [], _, read => by
      cases read
      trivial
  | parameter :: parameters, _, read => by
      rw [resolveAll?] at read
      rcases Option.bind_eq_some_iff.mp read with ⟨type, first, read⟩
      rcases Option.bind_eq_some_iff.mp read with ⟨types, others, same⟩
      cases same
      exact ⟨hasLengths_of_resolve? parameter first,
        allHaveLengths_of_resolveAll? parameters others⟩

end

end Parameter

end ContractCode.Abi
