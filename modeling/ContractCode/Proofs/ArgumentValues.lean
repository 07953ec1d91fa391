import ContractCode.Abi.Decode

/-! # Arguments and their types

What values a type has, and how long their encodings are. A number or a byte string of
fixed size may be any word, as it is not brought into the range of its type; all other
words are padded in one way only.
-/

namespace ContractCode.Abi

/-! ## Types -/

namespace AbiType

mutual

/-- Every array of a fixed length has elements, and every tuple has components. -/
def IsSolid : AbiType → Prop
  | .array element => IsSolid element
  | .fixedArray element length => length ≠ 0 ∧ IsSolid element
  | .tuple components => components ≠ [] ∧ AreSolid components
  | _ => True

def AreSolid : List AbiType → Prop
  | [] => True
  | type :: types => IsSolid type ∧ AreSolid types

end

mutual

/-- How many sequences are entered to read a value that has elements everywhere. -/
def nesting : AbiType → Nat
  | .string | .bytes => 1
  | .array element => nesting element + 2
  | .fixedArray element _ => nesting element + 1
  | .tuple components => deepest components + 1
  | _ => 0

def deepest : List AbiType → Nat
  | [] => 0
  | type :: types => max (nesting type) (deepest types)

end

mutual

theorem minimumWords_pos : (type : AbiType) → type.IsSolid → 0 < type.minimumWords
  | .fixedArray element _, solid =>
      Nat.mul_pos (Nat.pos_of_ne_zero solid.1) (minimumWords_pos element solid.2)
  | .tuple components, solid => totalMinimumWords_pos components solid.1 solid.2
  | .address, _ | .function, _ | .bool, _ | .string, _ | .bytes, _
  | .fixedBytes _, _ | .uint _, _ | .int _, _ | .array _, _ => Nat.one_pos

theorem totalMinimumWords_pos : (types : List AbiType) → types ≠ [] → AreSolid types →
    0 < totalMinimumWords types
  | [], filled, _ => absurd rfl filled
  | type :: _, _, solid => Nat.add_pos_left (minimumWords_pos type solid.1) _

end

mutual

theorem isEmpty_eq_false : (type : AbiType) → type.IsSolid → type.isEmpty = false
  | .array element, solid => isEmpty_eq_false element solid
  | .fixedArray element length, solid => by
      have filled : (length == 0) = false := beq_false_of_ne solid.1
      rw [isEmpty, filled, isEmpty_eq_false element solid.2]
      rfl
  | .tuple components, solid => areEmpty_eq_false components solid.1 solid.2
  | .address, _ | .function, _ | .bool, _ | .string, _ | .bytes, _
  | .fixedBytes _, _ | .uint _, _ | .int _, _ => rfl

theorem areEmpty_eq_false : (types : List AbiType) → types ≠ [] → AreSolid types →
    areEmpty types = false
  | [], filled, _ => absurd rfl filled
  | type :: types, _, solid => by
      rw [areEmpty, isEmpty_eq_false type solid.1]
      rfl

end

end AbiType

/-! ## Values -/

/-- The words of a type as they are read: those of numbers and of byte strings are kept
whole. -/
inductive IsWord : AbiType → Bytes → Prop
  | address {account : Bytes} (size : account.length = 20) :
      IsWord .address (List.replicate 12 0 ++ account)
  | function {pointer : Bytes} (size : pointer.length = 24) :
      IsWord .function (pointer ++ List.replicate 8 0)
  | bool (truth : Bool) : IsWord .bool (Value.number truth.toNat)
  | fixedBytes {size : Nat} {word : Bytes} (length : word.length = wordSize) :
      IsWord (.fixedBytes size) word
  | uint {bits : Nat} {word : Bytes} (length : word.length = wordSize) :
      IsWord (.uint bits) word
  | int {bits : Nat} {word : Bytes} (length : word.length = wordSize) :
      IsWord (.int bits) word

mutual

/-- The values of a type, given the words of the types that take one. -/
inductive HasType (isWord : AbiType → Bytes → Prop) : AbiType → Value → Prop
  | word {type : AbiType} {bytes : Bytes} (form : isWord type bytes) :
      HasType isWord type (.word bytes)
  | string {bytes : Bytes} (valid : Utf8.isValid bytes = true) :
      HasType isWord .string (.packed bytes)
  | bytes (bytes : Bytes) : HasType isWord .bytes (.packed bytes)
  | array {element : AbiType} {elements : List Value}
      (each : ∀ value ∈ elements, HasType isWord element value) :
      HasType isWord (.array element) (.array elements.length elements)
  | fixedArray {element : AbiType} {elements : List Value}
      (each : ∀ value ∈ elements, HasType isWord element value) :
      HasType isWord (.fixedArray element elements.length) (.sequence elements)
  | tuple {components : List AbiType} {elements : List Value}
      (each : HaveTypes isWord components elements) :
      HasType isWord (.tuple components) (.sequence elements)

inductive HaveTypes (isWord : AbiType → Bytes → Prop) : List AbiType → List Value → Prop
  | nil : HaveTypes isWord [] []
  | cons {type : AbiType} {types : List AbiType} {value : Value} {values : List Value}
      (first : HasType isWord type value) (others : HaveTypes isWord types values) :
      HaveTypes isWord (type :: types) (value :: values)

end

/-- The bytes are the encoding of values of the types. -/
def IsEncodingOf (isWord : AbiType → Bytes → Prop) (types : List AbiType)
    (arguments : Bytes) : Prop :=
  ∃ values, HaveTypes isWord types values ∧ Value.encodeArguments values = arguments

theorem Value.length_number (number : Nat) : (Value.number number).length = wordSize :=
  BigEndian.length_encode _ _

theorem IsWord.length {type : AbiType} {word : Bytes} (form : IsWord type word) :
    word.length = wordSize := by
  cases form with
  | address size => rw [List.length_append, size]; rfl
  | function size => rw [List.length_append, size]; rfl
  | bool truth => exact Value.length_number _
  | fixedBytes length | uint length | int length => exact length

/-! ## Heads and tails -/

namespace Value

variable {value : Value} {values : List Value} {offset : Nat}

theorem encodeParts_cons_of_dynamic (dynamic : isDynamic value = true) :
    encodeParts offset (value :: values) =
      (number offset ++ (encodeParts (offset + (encode value).length) values).1,
        encode value ++ (encodeParts (offset + (encode value).length) values).2) := by
  rw [encodeParts, if_pos dynamic]

theorem encodeParts_cons_of_static (static : isDynamic value = false) :
    encodeParts offset (value :: values) =
      (encode value ++ (encodeParts offset values).1, (encodeParts offset values).2) := by
  rw [encodeParts, static]
  rfl

theorem headSize_of_dynamic (dynamic : isDynamic value = true) :
    headSize value = wordSize := by
  cases value with
  | word bytes => cases dynamic
  | packed bytes => rfl
  | array length elements => rfl
  | sequence elements =>
      rw [headSize]
      exact if_pos dynamic

/-- Values of static size have no tails. -/
theorem tails_of_static (static : anyDynamic values = false) (offset : Nat) :
    (encodeParts offset values).2 = [] := by
  induction values with
  | nil => rfl
  | cons value values induction =>
      rw [anyDynamic, Bool.or_eq_false_iff] at static
      rw [encodeParts_cons_of_static static.1]
      exact induction static.2

mutual

theorem length_encode_of_static : (value : Value) → isDynamic value = false →
    (encode value).length = headSize value
  | .word _, _ => rfl
  | .packed _, static => nomatch static
  | .array .., static => nomatch static
  | .sequence elements, static => by
      have single : headSize (.sequence elements) = headsSize elements := by
        rw [headSize]
        exact if_neg (Bool.eq_false_iff.mp static)
      rw [encode, single, tails_of_static static, List.append_nil]
      exact length_heads elements _

theorem length_heads : (values : List Value) → (offset : Nat) →
    (encodeParts offset values).1.length = headsSize values
  | [], _ => rfl
  | value :: values, offset => by
      cases kind : isDynamic value with
      | true =>
          rw [encodeParts_cons_of_dynamic kind, headsSize, headSize_of_dynamic kind]
          dsimp only
          rw [List.length_append, length_number, length_heads values]
      | false =>
          rw [encodeParts_cons_of_static kind,
            headsSize, ← length_encode_of_static value kind]
          dsimp only
          rw [List.length_append, length_heads values]

end

/-- What the values take up one by one. -/
def encodedSize : List Value → Nat
  | [] => 0
  | value :: values => (encode value).length + encodedSize values

/-- A sequence takes up at least what its elements do. -/
theorem encodedSize_le_parts (values : List Value) (offset : Nat) :
    encodedSize values ≤
      (encodeParts offset values).1.length + (encodeParts offset values).2.length := by
  induction values generalizing offset with
  | nil => exact Nat.le_refl 0
  | cons value values induction =>
      rw [encodedSize]
      cases kind : isDynamic value with
      | true =>
          have rest := induction (offset + (encode value).length)
          rw [encodeParts_cons_of_dynamic kind]
          simp only [List.length_append]
          omega
      | false =>
          have rest := induction offset
          rw [encodeParts_cons_of_static kind]
          simp only [List.length_append]
          omega

theorem length_encode_sequence (elements : List Value) :
    (encode (.sequence elements)).length =
      (encodeParts (headsSize elements) elements).1.length +
        (encodeParts (headsSize elements) elements).2.length := by
  rw [encode, List.length_append]

end Value

/-! ## What the type tells about the encoding -/

variable {type : AbiType} {value : Value} {elements : List Value}

theorem anyDynamic_of_each {dynamic : Bool} (filled : elements ≠ [])
    (each : ∀ value ∈ elements, Value.isDynamic value = dynamic) :
    Value.anyDynamic elements = dynamic := by
  induction elements with
  | nil => exact absurd rfl filled
  | cons value values induction =>
      rcases List.forall_mem_cons.mp each with ⟨first, others⟩
      rw [Value.anyDynamic, first]
      cases values with
      | nil => exact Bool.or_false dynamic
      | cons second values =>
          rw [induction (List.cons_ne_nil _ _) others, Bool.or_self]

mutual

theorem HasType.isDynamic_eq :
    {type : AbiType} → {value : Value} → HasType IsWord type value →
    type.IsSolid → Value.isDynamic value = type.isDynamic
  | _, _, .word form, _ => by cases form <;> rfl
  | _, _, .string _, _ => rfl
  | _, _, .bytes _, _ => rfl
  | _, _, .array _, _ => rfl
  | _, _, .fixedArray each, solid => by
      rw [Value.isDynamic, AbiType.isDynamic]
      apply anyDynamic_of_each
      · rintro rfl
        exact solid.1 rfl
      · intro value member
        exact (each value member).isDynamic_eq solid.2
  | _, _, .tuple each, solid => each.anyDynamic_eq solid.2

theorem HaveTypes.anyDynamic_eq : {types : List AbiType} → {values : List Value} →
    HaveTypes IsWord types values → AbiType.AreSolid types →
    Value.anyDynamic values = AbiType.anyDynamic types
  | _, _, .nil, _ => rfl
  | _, _, .cons first others, solid => by
      rw [Value.anyDynamic, AbiType.anyDynamic, first.isDynamic_eq solid.1,
        others.anyDynamic_eq solid.2]

end

theorem encodedSize_of_each {size : Nat}
    (each : ∀ value ∈ elements, size ≤ (Value.encode value).length) :
    elements.length * size ≤ Value.encodedSize elements := by
  induction elements with
  | nil => exact Nat.le_of_eq (Nat.zero_mul size)
  | cons value values induction =>
      rcases List.forall_mem_cons.mp each with ⟨first, others⟩
      rw [List.length_cons, Nat.succ_mul, Value.encodedSize, Nat.add_comm]
      exact Nat.add_le_add first (induction others)

mutual

/-- A value takes up at least the words that its type must have. -/
theorem HasType.minimumWords_le :
    {type : AbiType} → {value : Value} → HasType IsWord type value →
    type.minimumWords * wordSize ≤ (Value.encode value).length
  | _, _, .word form => by
      have single := form.length
      cases form with
      | address size | function size | bool truth | fixedBytes length
      | uint length | int length =>
          exact Nat.le_of_eq single.symm
  | _, _, .string _ => by
      rw [Value.encode, List.length_append, List.length_append, Value.length_number]
      exact Nat.le_trans (Nat.le_add_right _ _) (Nat.le_add_right _ _)
  | _, _, .bytes _ => by
      rw [Value.encode, List.length_append, List.length_append, Value.length_number]
      exact Nat.le_trans (Nat.le_add_right _ _) (Nat.le_add_right _ _)
  | _, _, .array _ => by
      rw [Value.encode, List.length_append, List.length_append, Value.length_number]
      exact Nat.le_trans (Nat.le_add_right _ _) (Nat.le_add_right _ _)
  | _, _, .fixedArray each => by
      rw [AbiType.minimumWords, Nat.mul_assoc, Value.length_encode_sequence]
      have long :=
        encodedSize_of_each fun value member => (each value member).minimumWords_le
      exact Nat.le_trans long (Value.encodedSize_le_parts _ _)
  | _, _, .tuple each => by
      rw [AbiType.minimumWords, Value.length_encode_sequence]
      exact Nat.le_trans each.totalMinimumWords_le (Value.encodedSize_le_parts _ _)

theorem HaveTypes.totalMinimumWords_le : {types : List AbiType} → {values : List Value} →
    HaveTypes IsWord types values →
    AbiType.totalMinimumWords types * wordSize ≤ Value.encodedSize values
  | _, _, .nil => Nat.le_of_eq (Nat.zero_mul _)
  | _, _, .cons first others => by
      rw [AbiType.totalMinimumWords, Nat.add_mul, Value.encodedSize]
      exact Nat.add_le_add first.minimumWords_le others.totalMinimumWords_le

end

theorem HasType.length_encode_pos (typed : HasType IsWord type value)
    (solid : type.IsSolid) :
    0 < (Value.encode value).length :=
  Nat.lt_of_lt_of_le (Nat.mul_pos (type.minimumWords_pos solid) (Nat.zero_lt_succ 31))
    typed.minimumWords_le

end ContractCode.Abi
