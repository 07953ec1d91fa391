import ContractCode.Proofs.ArgumentReading
import ContractCode.Proofs.ResolvedTypes
import ContractCode.Proofs.TrailingArguments

/-! # Canonical arguments

The arguments of a constructor are validated exactly if they are the encoding of values
of its types. What is read is encoded again, so nothing else is taken, and an encoding
is read as the values it was made from. The values of numbers and of byte strings of
fixed size are any words: no value is refused for being out of the range of its type.
-/

namespace ContractCode.Abi

/-! ## Reading all arguments -/

variable {contents arguments : Bytes} {offset : Nat} {type : AbiType}
  {types : List AbiType}
  {value : Value} {values : List Value}

theorem decodeArgument_of_solid (solid : type.IsSolid) (cursor : Cursor) :
    decodeArgument type cursor =
      if cursor.remainingWords < type.minimumWords then none else decode type cursor := by
  rw [decodeArgument, AbiType.isEmpty_eq_false type solid]
  rfl

theorem decodeArgument_of_stands (typed : HasType IsWord type value)
    (solid : type.IsSolid)
    (small : contents.length < UInt64.size) (shallow : type.nesting ≤ nestingLimit)
    (stands : Stands contents offset value) :
    decodeArgument type ⟨contents, offset, 0⟩ =
      some (value, ⟨contents, offset + Value.headSize value, 0⟩) := by
  have long := typed.minimumWords_le
  have reaches := stands.reaches (typed.length_encode_pos solid)
  have room : ¬ Cursor.remainingWords ⟨contents, offset, 0⟩ < type.minimumWords := by
    apply Nat.not_lt.mpr
    apply (Nat.le_div_iff_mul_le (Nat.zero_lt_succ 31)).mpr
    exact Nat.le_trans long (Nat.le_sub_of_add_le' reaches)
  rw [decodeArgument_of_solid solid, if_neg room]
  exact typed.decode_of_stands solid small
    (Nat.le_trans (Nat.le_of_eq (Nat.zero_add _)) shallow) stands

theorem decodeParameters_of_allStand {parameters : List Parameter}
    (resolved : Parameter.resolveAll? parameters = some types)
    (typed : HaveTypes IsWord types values) (solid : AbiType.AreSolid types)
    (small : contents.length < UInt64.size)
    (shallow : AbiType.deepest types ≤ nestingLimit)
    (stand : AllStand contents offset values) :
    decodeParameters parameters ⟨contents, offset, 0⟩ = some values := by
  induction parameters generalizing types values offset with
  | nil =>
      cases resolved
      cases typed
      rfl
  | cons parameter parameters induction =>
      rw [Parameter.resolveAll?] at resolved
      rcases Option.bind_eq_some_iff.mp resolved with ⟨type, first, resolved⟩
      rcases Option.bind_eq_some_iff.mp resolved with ⟨types, others, same⟩
      cases same
      cases typed with
      | cons firstTyped othersTyped =>
          rw [AbiType.deepest, Nat.max_le] at shallow
          rw [decodeParameters, first]
          simp only [Option.bind_eq_bind, Option.bind_some]
          rw [decodeArgument_of_stands firstTyped solid.1 small shallow.1 stand.1]
          simp only [Option.bind_some]
          rw [induction others othersTyped solid.2 shallow.2 stand.2]
          rfl

theorem haveTypes_of_decodeParameters {parameters : List Parameter} {cursor : Cursor}
    (resolved : Parameter.resolveAll? parameters = some types)
    (solid : AbiType.AreSolid types)
    (read : decodeParameters parameters cursor = some values) :
    HaveTypes IsWord types values := by
  induction parameters generalizing types values cursor with
  | nil =>
      cases resolved
      cases read
      exact .nil
  | cons parameter parameters induction =>
      rw [Parameter.resolveAll?] at resolved
      rcases Option.bind_eq_some_iff.mp resolved with ⟨type, first, resolved⟩
      rcases Option.bind_eq_some_iff.mp resolved with ⟨types, others, same⟩
      cases same
      rw [decodeParameters, first] at read
      simp only [Option.bind_eq_bind, Option.bind_some] at read
      rcases Option.bind_eq_some_iff.mp read with ⟨⟨value, next⟩, firstRead, read⟩
      rcases Option.bind_eq_some_iff.mp read with ⟨rest, othersRead, same⟩
      cases same
      rw [decodeArgument_of_solid solid.1] at firstRead
      split at firstRead
      · cases firstRead
      · exact .cons (hasType_of_decode type solid.1 firstRead)
          (induction others solid.2 othersRead)

/-- Arguments are canonical exactly if they are an encoding. -/
theorem isCanonical_eq_true_iff {parameters : List Parameter}
    (resolved : Parameter.resolveAll? parameters = some types)
    (solid : AbiType.AreSolid types)
    (small : arguments.length < UInt64.size)
    (shallow : AbiType.deepest types ≤ nestingLimit) :
    isCanonical parameters arguments = true ↔ IsEncodingOf IsWord types arguments := by
  rw [isCanonical]
  constructor
  · intro canonical
    split at canonical
    · rename_i values read
      exact ⟨values, haveTypes_of_decodeParameters resolved solid read,
        eq_of_beq canonical⟩
    · cases canonical
  · rintro ⟨values, typed, encoded⟩
    have stand : AllStand arguments 0 values := by
      apply allStand_of_starts
      rw [← encoded]
      exact List.prefix_refl _
    rw [Cursor.start,
      decodeParameters_of_allStand resolved typed solid small shallow stand]
    exact beq_iff_eq.mpr encoded

/-! ## Values in range

Encodings of values in the range of their types are canonical as well, but not they
alone. -/

/-- The words of a type with its numbers in their range and its byte strings of their
length. -/
inductive IsWordInRange : AbiType → Bytes → Prop
  | address {account : Bytes} (size : account.length = 20) :
      IsWordInRange .address (List.replicate 12 0 ++ account)
  | function {pointer : Bytes} (size : pointer.length = 24) :
      IsWordInRange .function (pointer ++ List.replicate 8 0)
  | bool (truth : Bool) : IsWordInRange .bool (Value.number truth.toNat)
  | fixedBytes {bytes : Bytes} (short : bytes.length ≤ wordSize) :
      IsWordInRange (.fixedBytes bytes.length)
      (bytes ++ List.replicate (wordSize - bytes.length) 0)
  | uint {bits number : Nat} (small : number < BigEndian.bound (bits / 8)) :
      IsWordInRange (.uint bits) (Value.number number)
  | natural {bits number : Nat} (small : 2 * number < BigEndian.bound (bits / 8)) :
      IsWordInRange (.int bits) (Value.number number)
  /-- The complement of a number stands for the one below nought that follows its
  negative. -/
  | negative {bits number : Nat} (small : 2 * number < BigEndian.bound (bits / 8)) :
      IsWordInRange (.int bits) (Value.number (BigEndian.bound wordSize - 1 - number))

theorem IsWordInRange.isWord {word : Bytes} (inRange : IsWordInRange type word) :
    IsWord type word := by
  cases inRange with
  | address size => exact .address size
  | function size => exact .function size
  | bool truth => exact .bool truth
  | fixedBytes short =>
      apply IsWord.fixedBytes
      rw [List.length_append, List.length_replicate, Nat.add_sub_cancel' short]
  | uint small => exact .uint (Value.length_number _)
  | natural small | negative small => exact .int (Value.length_number _)

variable {isWord isOther : AbiType → Bytes → Prop}

mutual

theorem HasType.mono (more : ∀ type word, isWord type word → isOther type word) :
    {type : AbiType} → {value : Value} → HasType isWord type value →
      HasType isOther type value
  | _, _, .word form => .word (more _ _ form)
  | _, _, .string valid => .string valid
  | _, _, .bytes bytes => .bytes bytes
  | _, _, .array each => .array fun value member => (each value member).mono more
  | _, _, .fixedArray each => .fixedArray fun value member =>
      (each value member).mono more
  | _, _, .tuple each => .tuple (each.mono more)

theorem HaveTypes.mono (more : ∀ type word, isWord type word → isOther type word) :
    {types : List AbiType} → {values : List Value} → HaveTypes isWord types values →
      HaveTypes isOther types values
  | _, _, .nil => .nil
  | _, _, .cons first others => .cons (first.mono more) (others.mono more)

end

theorem isEncodingOf_of_inRange (encoding : IsEncodingOf IsWordInRange types arguments) :
    IsEncodingOf IsWord types arguments := by
  rcases encoding with ⟨values, typed, encoded⟩
  exact ⟨values, typed.mono fun _ _ inRange => inRange.isWord, encoded⟩

end ContractCode.Abi

/-! ## Validation -/

namespace ContractCode.ConstructorArguments

open Abi

variable {abi : Json} {document : Document} {types : List AbiType} {arguments : Bytes}

/-- Without parameters nothing is canonical but no arguments at all. -/
theorem areValid_eq_isCanonical {inputs : List Parameter} (follows : arguments ≠ []) :
    areValid inputs arguments = isCanonical inputs arguments := by
  cases inputs with
  | nil =>
      have other : ([] == arguments) = false := beq_false_of_ne follows.symm
      exact other.symm
  | cons parameter parameters => rfl

theorem extract_append (read : Document.ofJson? abi = some document)
    (follows : arguments ≠ [])
    (compiled : Bytes) :
    extract compiled (compiled ++ arguments) (some abi) =
      .ok ⟨some arguments,
        if isCanonical document.constructorInputs arguments then
          [.constructorArguments compiled.length]
        else []⟩ := by
  have rest : (compiled ++ arguments).drop compiled.length = arguments := List.drop_left
  have inputs : inputs (some abi) = .ok document.constructorInputs := by
    rw [inputs, read]
  rw [Matching.extract_of_follows inputs (rest.symm ▸ follows), rest,
    areValid_eq_isCanonical follows]

/-- What follows the code is validated exactly if it is the encoding of values for the
parameters of the constructor, which it is if the values are in range. It is returned in
any case. -/
theorem extract_validates_encodings (read : Document.ofJson? abi = some document)
    (resolved : Parameter.resolveAll? document.constructorInputs = some types)
    (components : AbiType.AllHaveComponents types)
    (shallow : AbiType.deepest types ≤ nestingLimit)
    (follows : arguments ≠ []) (small : arguments.length < UInt64.size)
    (compiled : Bytes) :
    (IsEncodingOf IsWord types arguments →
      extract compiled (compiled ++ arguments) (some abi) =
        .ok ⟨some arguments, [.constructorArguments compiled.length]⟩) ∧
    (¬ IsEncodingOf IsWord types arguments →
      extract compiled (compiled ++ arguments) (some abi) = .ok ⟨some arguments, []⟩) ∧
    (IsEncodingOf IsWordInRange types arguments →
      IsEncodingOf IsWord types arguments) := by
  have lengths := Parameter.allHaveLengths_of_resolveAll? _ resolved
  have solid := AbiType.areSolid_of_allHaveLengths types lengths components
  have canonical := isCanonical_eq_true_iff resolved solid small shallow
  refine ⟨?_, ?_, isEncodingOf_of_inRange⟩
  · intro encoding
    rw [extract_append read follows, if_pos (canonical.mpr encoding)]
  · intro other
    rw [extract_append read follows, if_neg fun valid => other (canonical.mp valid)]

/-! A text and a number of eight bits, of which the arguments say more. -/

def wideNumberInterface : Json :=
  .array [.object [("type", .text "constructor"), ("inputs", .array [
    .object [("name", .text "name"), ("type", .text "string")],
    .object [("name", .text "level"), ("type", .text "uint8")]])]]

def wideNumberParameters : List Parameter := [.mk "string" [], .mk "uint8" []]

def wideNumberTypes : List AbiType := [.string, .uint 8]

def wideNumberValues : List Value :=
  [.packed [0x68, 0x69], .word (List.replicate 32 0xff)]

def wideNumber : Bytes := Value.encodeArguments wideNumberValues

theorem ofJson?_wideNumberInterface :
    Document.ofJson? wideNumberInterface =
      some ⟨[.constructor wideNumberParameters]⟩ := by
  rfl

theorem resolveAll?_wideNumberParameters :
    Parameter.resolveAll? wideNumberParameters = some wideNumberTypes := by
  rfl

theorem length_wideNumber_lt : wideNumber.length < UInt64.size := by
  have length : wideNumber.length = 128 := by decide +kernel
  rw [length]
  decide

theorem extract_wideNumber :
    Document.ofJson? wideNumberInterface = some ⟨[.constructor wideNumberParameters]⟩ ∧
      Parameter.resolveAll? wideNumberParameters = some wideNumberTypes ∧
      AbiType.AllHaveComponents wideNumberTypes ∧
      AbiType.deepest wideNumberTypes ≤ nestingLimit ∧
      wideNumber ≠ [] ∧ wideNumber.length < UInt64.size ∧
      extract [0x60] ([0x60] ++ wideNumber) (some wideNumberInterface) =
        .ok ⟨some wideNumber, [.constructorArguments 1]⟩ := by
  have encoding : IsEncodingOf IsWord wideNumberTypes wideNumber :=
    ⟨wideNumberValues, .cons (.string (by decide)) (.cons (.word (.uint rfl)) .nil), rfl⟩
  have components : AbiType.AllHaveComponents wideNumberTypes :=
    ⟨trivial, trivial, trivial⟩
  have shallow : AbiType.deepest wideNumberTypes ≤ nestingLimit := by decide
  have follows : wideNumber ≠ [] := by decide
  have validates := extract_validates_encodings ofJson?_wideNumberInterface
    resolveAll?_wideNumberParameters components shallow follows
      length_wideNumber_lt [0x60]
  exact ⟨ofJson?_wideNumberInterface, resolveAll?_wideNumberParameters, components,
    shallow, follows, length_wideNumber_lt, validates.1 encoding⟩

theorem values_of_wideNumberTypes {values : List Value}
    (typed : HaveTypes IsWordInRange wideNumberTypes values) :
    ∃ bytes number, values = [.packed bytes, .word (Value.number number)] ∧
      number < BigEndian.bound 1 := by
  rcases typed with _ | ⟨text, _ | ⟨level, _ | _⟩⟩
  cases text with
  | word form => cases form
  | string valid =>
      cases level with
      | word form =>
          cases form with
          | uint small => exact ⟨_, _, rfl, small⟩

/-- The second word of the arguments is no number of eight bits. -/
theorem not_isEncodingOf_wideNumber :
    ¬ IsEncodingOf IsWordInRange wideNumberTypes wideNumber := by
  rintro ⟨values, typed, encoded⟩
  rcases values_of_wideNumberTypes typed with ⟨bytes, number, rfl, small⟩
  have stand : AllStand wideNumber 0 [.packed bytes, .word (Value.number number)] := by
    apply allStand_of_starts
    rw [← encoded]
    exact List.prefix_refl _
  have fits : number < BigEndian.bound wordSize :=
    Nat.lt_of_lt_of_le small (by decide +kernel)
  have large : BigEndian.bound 1 ≤
      BigEndian.decode ((wideNumber.drop wordSize).take wordSize) := by
    decide +kernel
  cases stand.2.1 with
  | inPlace static here =>
      have word := List.prefix_iff_eq_take.mp here
      rw [Value.encode, Value.length_number, Value.headSize, Nat.zero_add] at word
      rw [← word, Value.number, BigEndian.decode_encode fits] at large
      exact absurd small (Nat.not_lt.mpr large)
  | behind dynamic tail after inside head there => cases dynamic

theorem isCanonical_wideNumber : isCanonical wideNumberParameters wideNumber = true := by
  decide +kernel

/-- Arguments may be validated although a number in them is out of the range of its
type. -/
theorem not_only_values_in_range :
    ¬ ∀ (abi : Json) (document : Document) (types : List AbiType)
      (arguments compiled : Bytes),
      Document.ofJson? abi = some document →
      Parameter.resolveAll? document.constructorInputs = some types →
      AbiType.AllHaveComponents types → AbiType.deepest types ≤ nestingLimit →
      arguments ≠ [] → arguments.length < UInt64.size →
      (extract compiled (compiled ++ arguments) (some abi) =
          .ok ⟨some arguments, [.constructorArguments compiled.length]⟩ ↔
        IsEncodingOf IsWordInRange types arguments) := by
  intro all
  have validated : extract [0x60] ([0x60] ++ wideNumber) (some wideNumberInterface) =
      .ok ⟨some wideNumber, [.constructorArguments 1]⟩ := by
    have canonical :
        isCanonical (Document.constructorInputs ⟨[.constructor wideNumberParameters]⟩)
        wideNumber = true := isCanonical_wideNumber
    rw [extract_append ofJson?_wideNumberInterface (by decide), if_pos canonical]
    rfl
  have claimed :=
    all wideNumberInterface _ _ wideNumber [0x60] ofJson?_wideNumberInterface
    resolveAll?_wideNumberParameters ⟨trivial, trivial, trivial⟩ (by decide) (by decide)
    length_wideNumber_lt
  exact not_isEncodingOf_wideNumber (claimed.mp validated)

end ContractCode.ConstructorArguments
