import ContractCode.Proofs.ArgumentValues

/-! # Reading arguments back

A value stands at an offset if its head is there and its tail, if it has one, is where
the head says. Reading by the type of the value then gives the value and goes behind its
head, and the elements of a sequence stand one after another in its encoding. What is
read is of its type, wherever it stands.
-/

namespace ContractCode.Abi

/-! ## Bytes at an offset -/

section

variable {contents left right bytes : Bytes} {offset : Nat}

theorem prefix_drop_append (both : left ++ right <+: contents.drop offset) :
    left <+: contents.drop offset ∧ right <+: contents.drop (offset + left.length) := by
  refine ⟨(List.prefix_append left right).trans both, ?_⟩
  rcases both with ⟨rest, same⟩
  refine ⟨rest, ?_⟩
  rw [← List.drop_drop, ← same, List.append_assoc, List.drop_left]

theorem reaches_of_starts (filled : 0 < bytes.length)
    (here : bytes <+: contents.drop offset) :
    offset + bytes.length ≤ contents.length := by
  have short := here.length_le
  rw [List.length_drop] at short
  omega

theorem slice?_of_starts (inside : offset ≤ contents.length)
    (here : bytes <+: contents.drop offset) :
    contents.slice? ⟨offset, bytes.length⟩ = some bytes := by
  have short := here.length_le
  rw [List.length_drop] at short
  apply Bytes.slice?_eq_some_iff.mpr ⟨?_, ?_⟩
  · simp only [Span.Within, Span.stop]
    omega
  · exact List.prefix_iff_eq_take.mp here

end

/-! ## The cursor -/

namespace Cursor

variable {contents : Bytes} {offset depth : Nat}

theorem word?_of_starts {word : Bytes} (length : word.length = wordSize)
    (here : word <+: contents.drop offset) :
    word? ⟨contents, offset, depth⟩ =
      some (word, ⟨contents, offset + wordSize, depth⟩) := by
  have filled : 0 < word.length := length ▸ Nat.zero_lt_succ 31
  have inside := Nat.le_of_add_right_le (reaches_of_starts filled here)
  have found := slice?_of_starts inside here
  rw [length] at found
  rw [word?, found]
  rfl

theorem size_le_bound : UInt64.size ≤ BigEndian.bound wordSize := by decide +kernel

theorem number?_of_starts {number : Nat} (small : number < UInt64.size)
    (here : Value.number number <+: contents.drop offset) :
    number? ⟨contents, offset, depth⟩ =
      some (number, ⟨contents, offset + wordSize, depth⟩) := by
  have decoded : BigEndian.decode (Value.number number) = number :=
    BigEndian.decode_encode (Nat.lt_of_lt_of_le small size_le_bound)
  rw [number?, word?_of_starts (Value.length_number number) here]
  simp only [Option.bind_eq_bind, Option.bind_some]
  rw [decoded, if_pos small]

theorem enter?_of_le (shallow : depth < nestingLimit) {inner : Nat}
    (inside : inner ≤ contents.length) :
    enter? ⟨contents, offset, depth⟩ inner = some ⟨contents.drop inner, 0, depth + 1⟩ :=
  if_neg (not_or.mpr ⟨Nat.not_le.mpr shallow, Nat.not_lt.mpr inside⟩)

theorem follow?_of_starts (shallow : depth < nestingLimit) {tail : Nat}
    (small : tail < UInt64.size)
    (inside : tail ≤ contents.length)
    (here : Value.number tail <+: contents.drop offset) :
    follow? ⟨contents, offset, depth⟩ =
      some (⟨contents.drop tail, 0, depth + 1⟩,
        ⟨contents, offset + wordSize, depth⟩) := by
  rw [follow?, number?_of_starts small here]
  change (enter? ⟨contents, offset + wordSize, depth⟩ tail).bind _ = _
  rw [enter?_of_le shallow inside]
  rfl

end Cursor

/-! ## Values in their places -/

/-- The value is encoded in the contents, with its head at the offset. -/
inductive Stands (contents : Bytes) (offset : Nat) (value : Value) : Prop
  | inPlace (static : Value.isDynamic value = false)
      (here : Value.encode value <+: contents.drop offset)
  | behind (dynamic : Value.isDynamic value = true) (tail : Nat) (after : offset ≤ tail)
      (inside : tail ≤ contents.length)
      (head : Value.number tail <+: contents.drop offset)
      (there : Value.encode value <+: contents.drop tail)

/-- The heads of the values stand one after another from the offset. -/
def AllStand (contents : Bytes) : (offset : Nat) → List Value → Prop
  | _, [] => True
  | offset, value :: values =>
    Stands contents offset value ∧
      AllStand contents (offset + Value.headSize value) values

variable {contents : Bytes} {offset depth tail : Nat} {value : Value}
  {values elements : List Value}

theorem Stands.reaches (stands : Stands contents offset value)
    (filled : 0 < (Value.encode value).length) :
    offset + (Value.encode value).length ≤ contents.length := by
  cases stands with
  | inPlace static here => exact reaches_of_starts filled here
  | behind dynamic tail after inside head there =>
      exact Nat.le_trans (Nat.add_le_add_right after _) (reaches_of_starts filled there)

theorem allStand_of_parts
    (heads : (Value.encodeParts tail values).1 <+: contents.drop offset)
    (tails : (Value.encodeParts tail values).2 <+: contents.drop tail)
    (after : offset + Value.headsSize values ≤ tail) (inside : tail ≤ contents.length) :
    AllStand contents offset values := by
  induction values generalizing offset tail with
  | nil => trivial
  | cons value values induction =>
      rw [Value.headsSize, ← Nat.add_assoc] at after
      cases kind : Value.isDynamic value with
      | true =>
          -- the next tail starts where this one ends
          rw [Value.encodeParts_cons_of_dynamic kind] at heads tails
          rcases prefix_drop_append heads with ⟨head, heads⟩
          rcases prefix_drop_append tails with ⟨there, tails⟩
          rw [Value.length_number, ← Value.headSize_of_dynamic kind] at heads
          have before : offset ≤ tail := by omega
          refine ⟨.behind kind tail before inside head there, induction heads tails ?_ ?_⟩
          · exact Nat.le_trans after (Nat.le_add_right _ _)
          · have short := there.length_le
            rw [List.length_drop] at short
            omega
      | false =>
          rw [Value.encodeParts_cons_of_static kind] at heads tails
          rcases prefix_drop_append heads with ⟨here, heads⟩
          rw [Value.length_encode_of_static value kind] at heads
          exact ⟨.inPlace kind here, induction heads tails after inside⟩

/-- In the contents of a sequence its elements stand from the start. -/
theorem allStand_of_starts
    (here : (Value.encodeParts (Value.headsSize values) values).1 ++
      (Value.encodeParts (Value.headsSize values) values).2 <+: contents) :
    AllStand contents 0 values := by
  have long := here.length_le
  rw [List.length_append, Value.length_heads] at long
  rw [← List.drop_zero (l := contents)] at here
  rcases prefix_drop_append here with ⟨heads, tails⟩
  rw [Value.length_heads, Nat.zero_add] at tails
  exact allStand_of_parts heads tails (Nat.le_of_eq (Nat.zero_add _))
    (Nat.le_of_add_right_le long)

/-! ## Reading what stands in its place -/

theorem decode_word {type : AbiType} {word : Bytes} (form : IsWord type word)
    (here : word <+: contents.drop offset) :
    decode type ⟨contents, offset, depth⟩ =
      some (.word word, ⟨contents, offset + wordSize, depth⟩) := by
  have found : Cursor.word? ⟨contents, offset, depth⟩ = _ :=
    Cursor.word?_of_starts form.length here
  cases form with
  | address size =>
      rw [decode, decodeWord, found]
      simp [addressWord]
  | function size =>
      rw [decode, decodeWord, found]
      simp [functionWord, ← size]
  | bool truth =>
      rw [decode, decodeWord, found]
      cases truth <;> rfl
  | fixedBytes length | uint length | int length =>
      rw [decode, decodeWord, found]
      rfl

/-- The head of a dynamic value is followed to its tail. -/
theorem Stands.follow (stands : Stands contents offset value)
    (dynamic : Value.isDynamic value = true) (shallow : depth < nestingLimit)
    (small : contents.length < UInt64.size) :
    ∃ inner : Bytes, inner.length ≤ contents.length ∧ Value.encode value <+: inner ∧
      Cursor.follow? ⟨contents, offset, depth⟩ =
        some (⟨inner, 0, depth + 1⟩, ⟨contents, offset + wordSize, depth⟩) := by
  cases stands with
  | inPlace static here => cases dynamic.symm.trans static
  | behind _ tail after inside head there =>
      refine ⟨contents.drop tail, ?_, there, ?_⟩
      · rw [List.length_drop]
        exact Nat.sub_le _ _
      · exact Cursor.follow?_of_starts shallow
          (Nat.lt_of_le_of_lt inside small) inside head

/-- What has a length in front: the length is read, and the rest stands behind it. -/
theorem number?_of_sized {inner rest : Bytes} {length : Nat} (fits : length < UInt64.size)
    (there : Value.number length ++ rest <+: inner) :
    Cursor.number? ⟨inner, 0, depth⟩ = some (length, ⟨inner, wordSize, depth⟩) ∧
      wordSize ≤ inner.length ∧ rest <+: inner.drop wordSize := by
  rw [← List.drop_zero (l := inner)] at there
  rcases prefix_drop_append there with ⟨size, rest⟩
  have inside := reaches_of_starts (Value.length_number length ▸ Nat.zero_lt_succ 31) size
  rw [Value.length_number, Nat.zero_add] at inside rest
  exact ⟨Cursor.number?_of_starts fits size, inside, rest⟩

theorem packed?_of_stands {bytes : Bytes} (shallow : depth < nestingLimit)
    (small : contents.length < UInt64.size)
    (stands : Stands contents offset (.packed bytes)) :
    Cursor.packed? ⟨contents, offset, depth⟩ =
      some (bytes, ⟨contents, offset + wordSize, depth⟩) := by
  rcases stands.follow rfl shallow small with ⟨inner, smaller, there, follows⟩
  rw [Value.encode, List.append_assoc] at there
  have fits : bytes.length < UInt64.size := by
    have short := there.length_le
    simp only [List.length_append] at short
    omega
  rcases number?_of_sized fits there with ⟨sized, inside, there⟩
  have bytesThere := (List.prefix_append bytes _).trans there
  rw [Cursor.packed?, follows]
  simp only [Option.bind_eq_bind, Option.bind_some]
  rw [sized]
  simp only [Option.bind_some]
  rw [slice?_of_starts inside bytesThere]
  rfl

/-- The value is read wherever it stands in the contents. -/
def Reads (decode : Cursor → Option (Value × Cursor)) (contents : Bytes) (depth : Nat)
    (value : Value) : Prop :=
  ∀ offset, Stands contents offset value →
    decode ⟨contents, offset, depth⟩ =
      some (value, ⟨contents, offset + Value.headSize value, depth⟩)

theorem decodeMany_of_allStand {decode : Cursor → Option (Value × Cursor)}
    (reads : ∀ value ∈ values, Reads decode contents depth value)
    (stand : AllStand contents offset values) :
    decodeMany decode values.length ⟨contents, offset, depth⟩ =
      some (values, ⟨contents, offset + Value.headsSize values, depth⟩) := by
  induction values generalizing offset with
  | nil => rfl
  | cons value values induction =>
      rcases List.forall_mem_cons.mp reads with ⟨first, others⟩
      rw [List.length_cons, decodeMany, first offset stand.1]
      simp only [Option.bind_eq_bind, Option.bind_some]
      rw [induction others stand.2, Value.headsSize, ← Nat.add_assoc]
      rfl

theorem decodeElements_of_allStand {decode : Cursor → Option (Value × Cursor)}
    {minimumWords : Nat}
    (positive : 0 < minimumWords)
    (reads : ∀ value ∈ values, Reads decode contents depth value)
    (stand : AllStand contents offset values) :
    decodeElements minimumWords decode values.length ⟨contents, offset, depth⟩ =
      some (values, ⟨contents, offset + Value.headsSize values, depth⟩) := by
  rw [decodeElements, if_neg fun empty => Nat.ne_of_gt positive empty.1]
  exact decodeMany_of_allStand reads stand

/-- A sequence is entered where it stands, and its elements stand in it from the start. -/
theorem decodeSequence_of_stands {dynamic : Bool}
    {decode : Cursor → Option (List Value × Cursor)}
    (kind : Value.isDynamic (.sequence elements) = dynamic)
    (shallow : depth < nestingLimit) (small : contents.length < UInt64.size)
    (filled : 0 < (Value.encode (.sequence elements)).length)
    (reads : ∀ inner : Bytes, inner.length < UInt64.size → AllStand inner 0 elements →
      decode ⟨inner, 0, depth + 1⟩ =
        some (elements, ⟨inner, Value.headsSize elements, depth + 1⟩))
    (stands : Stands contents offset (.sequence elements)) :
    decodeSequence dynamic decode ⟨contents, offset, depth⟩ =
      some (.sequence elements,
        ⟨contents, offset + Value.headSize (.sequence elements), depth⟩) := by
  rw [← kind]
  cases isDynamic : Value.isDynamic (.sequence elements) with
  | true =>
      rcases stands.follow isDynamic shallow small with ⟨inner, smaller, there, follows⟩
      rw [decodeSequence, if_pos rfl, follows]
      simp only [Option.bind_eq_bind, Option.bind_some]
      rw [reads inner (Nat.lt_of_le_of_lt smaller small) (allStand_of_starts there),
        Value.headSize_of_dynamic isDynamic]
      rfl
  | false =>
      cases stands with
      | behind dynamic tail after inside head there => cases isDynamic.symm.trans dynamic
      | inPlace static here =>
          have inside := Nat.le_of_add_right_le (reaches_of_starts filled here)
          have smaller : (contents.drop offset).length < UInt64.size := by
            rw [List.length_drop]
            omega
          have single : Value.headSize (.sequence elements) =
              Value.headsSize elements := by
            rw [Value.headSize]
            exact if_neg (Bool.eq_false_iff.mp static)
          rw [decodeSequence, if_neg Bool.false_ne_true]
          dsimp only
          rw [Cursor.enter?_of_le shallow inside]
          simp only [Option.bind_eq_bind, Option.bind_some]
          rw [reads _ smaller (allStand_of_starts here), single]
          rfl

/-- The elements of an array stand behind its length, and they take up as many words as
is asked for. -/
theorem decodeArray_of_stands {decode : Cursor → Option (Value × Cursor)}
    {minimumWords : Nat}
    (positive : 0 < minimumWords) (shallow : depth + 1 < nestingLimit)
    (small : contents.length < UInt64.size)
    (long : ∀ value ∈ elements, minimumWords * wordSize ≤ (Value.encode value).length)
    (reads : ∀ inner : Bytes, inner.length < UInt64.size →
      ∀ value ∈ elements, Reads decode inner (depth + 2) value)
    (stands : Stands contents offset (.array elements.length elements)) :
    decodeArray minimumWords decode ⟨contents, offset, depth⟩ =
      some (.array elements.length elements, ⟨contents, offset + wordSize, depth⟩) := by
  rcases stands.follow rfl (Nat.lt_of_succ_lt shallow) small with
    ⟨inner, smaller, there, follows⟩
  rw [Value.encode, List.append_assoc] at there
  have enough : elements.length * minimumWords * wordSize ≤
      ((Value.encodeParts (Value.headsSize elements) elements).1 ++
        (Value.encodeParts (Value.headsSize elements) elements).2).length := by
    rw [Nat.mul_assoc, List.length_append]
    exact Nat.le_trans (encodedSize_of_each long) (Value.encodedSize_le_parts elements _)
  have fits : elements.length < UInt64.size := by
    have few := Nat.le_mul_of_pos_right elements.length positive
    have short := there.length_le
    rw [List.length_append] at short
    rw [wordSize] at enough
    omega
  rcases number?_of_sized fits there with ⟨sized, inside, parts⟩
  rw [decodeArray, follows]
  simp only [Option.bind_eq_bind, Option.bind_some]
  rw [sized]
  simp only [Option.bind_some]
  split
  · rename_i empty
    rw [List.length_eq_zero_iff.mp empty]
    rfl
  · have room : ¬ (Cursor.remainingWords ⟨inner.drop wordSize, 0, depth + 1 + 1⟩ <
        elements.length * minimumWords) :=
      Nat.not_lt.mpr ((Nat.le_div_iff_mul_le (Nat.zero_lt_succ 31)).mpr
        (Nat.le_trans enough parts.length_le))
    have smallest : (inner.drop wordSize).length < UInt64.size := by
      rw [List.length_drop]
      omega
    rw [Cursor.enter?_of_le shallow inside]
    simp only [Option.bind_some]
    rw [if_neg room,
      decodeElements_of_allStand positive (reads _ smallest) (allStand_of_starts parts)]
    rfl

mutual

/-- A value that stands at the cursor is read, and the cursor goes behind its head. -/
theorem HasType.decode_of_stands :
    {type : AbiType} → {value : Value} → HasType IsWord type value →
    type.IsSolid → ∀ {contents : Bytes} {offset depth : Nat},
      contents.length < UInt64.size →
    depth + type.nesting ≤ nestingLimit → Stands contents offset value →
    decode type ⟨contents, offset, depth⟩ =
      some (value, ⟨contents, offset + Value.headSize value, depth⟩)
  | _, _, .word form, _, _, _, _, _, _, stands => by
      cases stands with
      | inPlace static here =>
          rw [Value.headSize, form.length]
          exact decode_word form here
      | behind dynamic tail after inside head there => cases dynamic
  | _, _, .string valid, _, _, _, _, small, shallow, stands => by
      rw [decode, packed?_of_stands shallow small stands]
      simp only [Option.map_some, Utf8.repair_of_isValid valid]
      rfl
  | _, _, .bytes _, _, _, _, _, small, shallow, stands => by
      rw [decode, packed?_of_stands shallow small stands]
      rfl
  | .array element, _, .array each, solid, _, _, depth, small, shallow, stands => by
      -- an array is entered twice, at its length and behind it
      rw [AbiType.nesting] at shallow
      rw [decode]
      apply decodeArray_of_stands (AbiType.minimumWords_pos element solid) (by omega)
        small _ _ stands
      · intro value member
        exact (each value member).minimumWords_le
      · intro inner smaller value member offset stands
        exact (each value member).decode_of_stands solid smaller (by omega) stands
  | _, _, .fixedArray each, solid, _, _, depth, small, shallow, stands => by
      have filled := (HasType.fixedArray each).length_encode_pos solid
      have kind := (HasType.fixedArray each).isDynamic_eq solid
      rw [AbiType.nesting] at shallow
      rw [AbiType.isDynamic] at kind
      rw [decode]
      apply decodeSequence_of_stands kind (by omega) small filled _ stands
      intro inner smaller stand
      rw [← Nat.zero_add (Value.headsSize _)]
      apply decodeElements_of_allStand (AbiType.minimumWords_pos _ solid.2) _ stand
      intro value member offset stands
      exact (each value member).decode_of_stands solid.2 smaller (by omega) stands
  | _, _, .tuple each, solid, _, _, depth, small, shallow, stands => by
      have filled := (HasType.tuple each).length_encode_pos solid
      have kind := (HasType.tuple each).isDynamic_eq solid
      rw [AbiType.nesting] at shallow
      rw [AbiType.isDynamic] at kind
      rw [decode]
      apply decodeSequence_of_stands kind (by omega) small filled _ stands
      intro inner smaller stand
      rw [← Nat.zero_add (Value.headsSize _)]
      exact each.decodeAll_of_allStand solid.2 smaller (by omega) stand

theorem HaveTypes.decodeAll_of_allStand : {types : List AbiType} → {values : List Value} →
    HaveTypes IsWord types values → AbiType.AreSolid types →
    ∀ {contents : Bytes} {offset depth : Nat}, contents.length < UInt64.size →
    depth + AbiType.deepest types ≤ nestingLimit → AllStand contents offset values →
    decodeAll types ⟨contents, offset, depth⟩ =
      some (values, ⟨contents, offset + Value.headsSize values, depth⟩)
  | _, _, .nil, _, _, _, _, _, _, _ => rfl
  | _, _, .cons first others, solid, _, _, depth, small, shallow, stand => by
      rw [AbiType.deepest] at shallow
      rw [decodeAll, first.decode_of_stands solid.1 small (by omega) stand.1]
      simp only [Option.bind_eq_bind, Option.bind_some]
      rw [others.decodeAll_of_allStand solid.2 small (by omega) stand.2, Value.headsSize,
        ← Nat.add_assoc]
      rfl

end

/-! ## What is read -/

section

variable {cursor next : Cursor} {count : Nat}

theorem eq_word_of_decodeWord {form : Bytes → Bytes}
    (read : decodeWord form cursor = some (value, next)) :
    ∃ word : Bytes, word.length = wordSize ∧ value = .word (form word) := by
  rw [decodeWord, Option.map_eq_some_iff] at read
  rcases read with ⟨⟨word, after⟩, found, same⟩
  cases same
  rw [Cursor.word?, Option.map_eq_some_iff] at found
  rcases found with ⟨_, sliced, same⟩
  cases same
  exact ⟨word, Bytes.length_of_slice? sliced, rfl⟩

theorem each_of_decodeMany {decode : Cursor → Option (Value × Cursor)}
    {Holds : Value → Prop}
    (each : ∀ cursor value next, decode cursor = some (value, next) → Holds value)
    (read : decodeMany decode count cursor = some (values, next)) :
    values.length = count ∧ ∀ value ∈ values, Holds value := by
  induction count generalizing cursor values next with
  | zero =>
      cases read
      exact ⟨rfl, nofun⟩
  | succ count induction =>
      rw [decodeMany] at read
      rcases Option.bind_eq_some_iff.mp read with ⟨⟨value, after⟩, first, read⟩
      rcases Option.bind_eq_some_iff.mp read with ⟨⟨others, last⟩, later, same⟩
      cases same
      rcases induction later with ⟨length, holds⟩
      exact ⟨congrArg (· + 1) length, List.forall_mem_cons.mpr ⟨each _ _ _ first, holds⟩⟩

theorem each_of_decodeElements {decode : Cursor → Option (Value × Cursor)}
    {minimumWords : Nat}
    {Holds : Value → Prop} (positive : 0 < minimumWords)
    (each : ∀ cursor value next, decode cursor = some (value, next) → Holds value)
    (read : decodeElements minimumWords decode count cursor = some (values, next)) :
    values.length = count ∧ ∀ value ∈ values, Holds value := by
  rw [decodeElements, if_neg fun empty => Nat.ne_of_gt positive empty.1] at read
  exact each_of_decodeMany each read

theorem eq_sequence_of_decodeSequence {dynamic : Bool}
    {decode : Cursor → Option (List Value × Cursor)}
    (read : decodeSequence dynamic decode cursor = some (value, next)) :
    ∃ inner elements last, decode inner = some (elements, last) ∧
      value = .sequence elements := by
  rw [decodeSequence] at read
  split at read
  · rcases Option.bind_eq_some_iff.mp read with ⟨⟨inner, after⟩, _, read⟩
    rcases Option.bind_eq_some_iff.mp read with ⟨⟨elements, last⟩, found, same⟩
    cases same
    exact ⟨_, _, _, found, rfl⟩
  · rcases Option.bind_eq_some_iff.mp read with ⟨inner, _, read⟩
    rcases Option.bind_eq_some_iff.mp read with ⟨⟨elements, last⟩, found, same⟩
    cases same
    exact ⟨_, _, _, found, rfl⟩

theorem eq_array_of_decodeArray {decode : Cursor → Option (Value × Cursor)}
    {minimumWords : Nat}
    {Holds : Value → Prop} (positive : 0 < minimumWords)
    (each : ∀ cursor value next, decode cursor = some (value, next) → Holds value)
    (read : decodeArray minimumWords decode cursor = some (value, next)) :
    ∃ elements : List Value, value = .array elements.length elements ∧
      ∀ value ∈ elements, Holds value := by
  rw [decodeArray] at read
  rcases Option.bind_eq_some_iff.mp read with ⟨⟨inner, after⟩, _, read⟩
  rcases Option.bind_eq_some_iff.mp read with ⟨⟨length, inner⟩, _, read⟩
  dsimp only at read
  split at read
  · cases read
    exact ⟨[], rfl, nofun⟩
  · rcases Option.bind_eq_some_iff.mp read with ⟨inner, _, read⟩
    split at read
    · cases read
    · rcases Option.bind_eq_some_iff.mp read with ⟨⟨elements, last⟩, found, same⟩
      cases same
      rcases each_of_decodeElements positive each found with ⟨rfl, holds⟩
      exact ⟨elements, rfl, holds⟩

end

mutual

/-- Whatever is read as a value of a type is one. -/
theorem hasType_of_decode : (type : AbiType) → type.IsSolid →
    ∀ {cursor next : Cursor} {value : Value}, decode type cursor = some (value, next) →
    HasType IsWord type value
  | .address, _, _, _, _, read => by
      rw [decode] at read
      rcases eq_word_of_decodeWord read with ⟨word, length, rfl⟩
      exact .word (.address (by rw [List.length_drop, length]; rfl))
  | .function, _, _, _, _, read => by
      rw [decode] at read
      rcases eq_word_of_decodeWord read with ⟨word, length, rfl⟩
      exact .word (.function (by rw [List.length_take, length]; rfl))
  | .bool, _, _, _, _, read => by
      rw [decode] at read
      rcases eq_word_of_decodeWord read with ⟨word, length, rfl⟩
      rw [boolWord]
      split
      · exact .word (.bool false)
      · exact .word (.bool true)
  | .fixedBytes size, _, _, _, _, read => by
      rw [decode] at read
      rcases eq_word_of_decodeWord read with ⟨word, length, rfl⟩
      exact .word (.fixedBytes length)
  | .uint bits, _, _, _, _, read => by
      rw [decode] at read
      rcases eq_word_of_decodeWord read with ⟨word, length, rfl⟩
      exact .word (.uint length)
  | .int bits, _, _, _, _, read => by
      rw [decode] at read
      rcases eq_word_of_decodeWord read with ⟨word, length, rfl⟩
      exact .word (.int length)
  | .string, _, _, _, _, read => by
      rw [decode] at read
      rcases Option.map_eq_some_iff.mp read with ⟨⟨bytes, after⟩, _, same⟩
      cases same
      exact .string (Utf8.isValid_repair bytes)
  | .bytes, _, _, _, _, read => by
      rw [decode] at read
      rcases Option.map_eq_some_iff.mp read with ⟨⟨bytes, after⟩, _, same⟩
      cases same
      exact .bytes bytes
  | .array element, solid, _, _, _, read => by
      rw [decode] at read
      have each : ∀ cursor value next, decode element cursor = some (value, next) →
          HasType IsWord element value :=
        fun _ _ _ found => hasType_of_decode element solid found
      rcases eq_array_of_decodeArray (AbiType.minimumWords_pos element solid) each read
        with ⟨elements, rfl, holds⟩
      exact .array holds
  | .fixedArray element length, solid, _, _, _, read => by
      rw [decode] at read
      rcases eq_sequence_of_decodeSequence read with ⟨_, elements, _, found, rfl⟩
      have each : ∀ cursor value next, decode element cursor = some (value, next) →
          HasType IsWord element value :=
        fun _ _ _ found => hasType_of_decode element solid.2 found
      rcases each_of_decodeElements (AbiType.minimumWords_pos element solid.2) each found
        with ⟨rfl, holds⟩
      exact .fixedArray holds
  | .tuple components, solid, _, _, _, read => by
      rw [decode] at read
      rcases eq_sequence_of_decodeSequence read with ⟨_, elements, _, found, rfl⟩
      exact .tuple (haveTypes_of_decodeAll components solid.2 found)

theorem haveTypes_of_decodeAll : (types : List AbiType) → AbiType.AreSolid types →
    ∀ {cursor next : Cursor} {values : List Value},
      decodeAll types cursor = some (values, next) →
    HaveTypes IsWord types values
  | [], _, _, _, _, read => by
      cases read
      exact .nil
  | type :: types, solid, _, _, _, read => by
      rw [decodeAll] at read
      rcases Option.bind_eq_some_iff.mp read with ⟨⟨value, after⟩, first, read⟩
      rcases Option.bind_eq_some_iff.mp read with ⟨⟨others, last⟩, later, same⟩
      cases same
      exact .cons (hasType_of_decode type solid.1 first)
        (haveTypes_of_decodeAll types solid.2 later)

end

end ContractCode.Abi
