import ContractCode.Proofs.Following

/-! # Tokens

An item is passed over token by token. A number, a tag or a simple value is one token,
and so is a string with all its pieces; of a container only the head is one, and the
break that ends it is another. `IsToken` lists what may be written for a token, and the
reader of tokens accepts these bytes and no others.
-/

namespace ContractCode.Cbor

/-! ## Strings and heads of containers -/

/-- The pieces of a string of indefinite length, up to and with the break. -/
inductive IsPieces (major : Nat) : Bytes → Prop
  | done : IsPieces major [breakByte]
  | piece {content first others : Bytes} (string : IsString major content first)
      (valid : major = textType → Utf8.isValid content = true)
      (later : IsPieces major others) :
      IsPieces major (first ++ others)

/-- The bytes are a string, in one or in pieces. -/
inductive IsWholeString (major : Nat) : Bytes → Prop
  | sized {content bytes : Bytes} (string : IsString major content bytes)
      (valid : major = textType → Utf8.isValid content = true) : IsWholeString major bytes
  | pieces {bytes : Bytes} (pieces : IsPieces major bytes) :
      IsWholeString major (openHead major :: bytes)

/-- The bytes are the head of a container with so many items, or of one that goes on up
to a break. -/
inductive IsContainerHead (major : Nat) : Option Nat → Bytes → Prop
  | sized {count : Nat} {bytes : Bytes} (isHead : IsHead major count bytes) :
      IsContainerHead major (some count) bytes
  | openEnded : IsContainerHead major none [openHead major]

variable {input rest bytes : Bytes}

theorem majorOf_lt (head : UInt8) : majorOf head < 8 := by
  have := head.toNat_lt
  rw [majorOf]
  omega

theorem pieces?_eq_some_iff {major : Nat} (major_lt : major < 7) :
    pieces? major input = some rest ↔ ∃ bytes, IsPieces major bytes ∧
    input = bytes ++ rest := by
  constructor
  · intro found
    induction size : input.length using Nat.strongRecOn generalizing input with
    | _ length induction =>
        cases input with
        | nil =>
            rw [pieces?] at found
            cases found
        | cons head tail =>
            rw [pieces?_cons] at found
            split at found
            · rename_i isBreak
              cases found
              exact ⟨[breakByte], .done, by rw [isBreak, List.singleton_append]⟩
            · rcases Option.bind_eq_some_iff.mp found with ⟨⟨content, left⟩, read, later⟩
              have shorter := length_string? read
              rcases induction left.length (by omega) later rfl with ⟨others, pieces, rfl⟩
              rcases (string?_eq_some_iff (by omega)).mp read with
                ⟨valid, first, string, joined⟩
              refine ⟨first ++ others, .piece string valid pieces, ?_⟩
              rw [joined, List.append_assoc]
  · rintro ⟨bytes, pieces, rfl⟩
    induction pieces with
    | done => rw [List.singleton_append, pieces?_cons, if_pos rfl]
    | @piece content first others string valid later induction =>
        have read : string? major (first ++ (others ++ rest)) =
            some (content, others ++ rest) :=
          (string?_eq_some_iff (by omega)).mpr ⟨valid, first, string, rfl⟩
        rcases string with ⟨headBytes, isHead, rfl⟩
        -- The first byte of a piece is a head of the major type, and the break is of
        -- another one.
        rcases isHead.exists_cons (by omega) with ⟨head, tail, rfl, same, _⟩
        have other : head ≠ breakByte := by
          rintro rfl
          have : majorOf breakByte = 7 := rfl
          omega
        simp only [List.cons_append, List.append_assoc] at read ⊢
        rw [pieces?_cons, if_neg other, read]
        exact induction

theorem container?_eq_some_iff {major : Nat} {items : Option Nat} (major_lt : major < 8) :
    container? major input = some (items, rest) ↔
      ∃ bytes, IsContainerHead major items bytes ∧ input = bytes ++ rest := by
  cases items with
  | none =>
      rw [container?_eq_some_none_iff major_lt]
      constructor
      · intro joined
        exact ⟨_, .openEnded, joined⟩
      · rintro ⟨_, _ | _, joined⟩
        exact joined
  | some count =>
      rw [container?_eq_some_some_iff, definite?_eq_some_iff major_lt]
      constructor
      · rintro ⟨bytes, isHead, joined⟩
        exact ⟨bytes, .sized isHead, joined⟩
      · rintro ⟨bytes, isHead | _, joined⟩
        exact ⟨bytes, isHead, joined⟩

/-! A reader that has looked at the first byte finds what is written for the major type
of that byte. -/

variable {head : UInt8} {tail : Bytes}

theorem argument?_infoOf_eq_some_iff {value : Nat} :
    argument? (infoOf head) tail = some (value, rest) ↔
      ∃ bytes, IsHead (majorOf head) value bytes ∧ head :: tail = bytes ++ rest := by
  rw [← definite?_eq_some_iff (majorOf_lt head), definite?, if_pos rfl]

theorem skipString?_eq_some_iff (major_lt : majorOf head < 7) :
    skipString? (majorOf head) (head :: tail) = some rest ↔
      ∃ bytes, IsWholeString (majorOf head) bytes ∧ head :: tail = bytes ++ rest := by
  rw [skipString?]
  constructor
  · intro skipped
    split at skipped
    · rename_i indefinite
      rcases (pieces?_eq_some_iff major_lt).mp skipped with ⟨bytes, pieces, rfl⟩
      refine ⟨_, .pieces pieces, ?_⟩
      rw [← eq_openHead indefinite, List.cons_append]
    · rcases Option.map_eq_some_iff.mp skipped with ⟨⟨content, left⟩, read, rfl⟩
      rcases (string?_eq_some_iff (majorOf_lt head)).mp read with
        ⟨valid, bytes, string, joined⟩
      exact ⟨bytes, .sized string valid, joined⟩
  · rintro ⟨bytes, string, joined⟩
    cases string with
    | pieces pieces =>
        rcases List.cons.inj joined with ⟨isOpen, rfl⟩
        rw [isOpen, majorOf_openHead (majorOf_lt head),
          if_pos (infoOf_openHead (majorOf_lt head))]
        exact (pieces?_eq_some_iff major_lt).mpr ⟨_, pieces, rfl⟩
    | @sized content _ string valid =>
        have read : string? (majorOf head) (head :: tail) = some (content, rest) :=
          (string?_eq_some_iff (majorOf_lt head)).mpr ⟨valid, bytes, string, joined⟩
        rcases string with ⟨headBytes, isHead, rfl⟩
        rcases isHead.exists_cons (majorOf_lt head) with ⟨first, others, rfl, _, definite⟩
        rcases List.cons.inj joined with ⟨rfl, _⟩
        rw [if_neg (by rw [indefiniteInfo]; omega), read]
        rfl

/-! ## Tokens -/

/-- The bytes of one token. -/
inductive IsToken : Token → Bytes → Prop
  | number {major value : Nat} {bytes : Bytes}
      (isNumber : major = unsignedType ∨ major = negativeType)
      (isHead : IsHead major value bytes) : IsToken .leaf bytes
  | string {major : Nat} {bytes : Bytes}
      (isString : major = byteStringType ∨ major = textType)
      (string : IsWholeString major bytes) : IsToken .leaf bytes
  | array {items : Option Nat} {bytes : Bytes}
      (isHead : IsContainerHead arrayType items bytes) :
      IsToken (.container items) bytes
  | map {entries : Option Nat} {bytes : Bytes}
      (isHead : IsContainerHead mapType entries bytes) :
      IsToken (.container (entries.map fun count => min (2 * count) largest)) bytes
  | tag {value : Nat} {bytes : Bytes} (isHead : IsHead tagType value bytes) :
      IsToken .tag bytes
  | breakMark : IsToken .breakMark [breakByte]
  | simple {value : Nat} {bytes : Bytes} (isHead : IsHead simpleType value bytes) :
      IsToken .leaf bytes

/-! The branches of the reader that take an argument differ in the token only, and so do
those that take the head of a container. -/

variable {token : Token}

theorem exists_isToken_of_argument? {kind : Token}
    (found : (argument? (infoOf head) tail).map (fun taken => (kind, taken.2)) =
      some (token, rest))
    (isToken : ∀ {value bytes}, IsHead (majorOf head) value bytes → IsToken kind bytes) :
    ∃ bytes, IsToken token bytes ∧ head :: tail = bytes ++ rest := by
  rcases Option.map_eq_some_iff.mp found with ⟨⟨value, left⟩, read, pair⟩
  cases pair
  rcases argument?_infoOf_eq_some_iff.mp read with ⟨bytes, isHead, joined⟩
  exact ⟨bytes, isToken isHead, joined⟩

theorem exists_isToken_of_container? (kind : Option Nat → Token)
    (found : (container? (majorOf head) (head :: tail)).map
      (fun taken => (kind taken.1, taken.2)) = some (token, rest))
    (isToken : ∀ {items bytes}, IsContainerHead (majorOf head) items bytes →
      IsToken (kind items) bytes) :
    ∃ bytes, IsToken token bytes ∧ head :: tail = bytes ++ rest := by
  rcases Option.map_eq_some_iff.mp found with ⟨⟨items, left⟩, read, pair⟩
  cases pair
  rcases (container?_eq_some_iff (majorOf_lt head)).mp read with ⟨bytes, isHead, joined⟩
  exact ⟨bytes, isToken isHead, joined⟩

theorem exists_isToken (found : token? input = some (token, rest)) :
    ∃ bytes, IsToken token bytes ∧ input = bytes ++ rest := by
  cases input with
  | nil => cases found
  | cons head tail =>
      rw [token?] at found
      dsimp only at found
      split at found
      · rename_i isNumber
        exact exists_isToken_of_argument? found fun isHead => .number isNumber isHead
      split at found
      · rename_i isString
        rcases Option.map_eq_some_iff.mp found with ⟨left, skipped, pair⟩
        cases pair
        have major_lt : majorOf head < 7 := by
          rcases isString with same | same <;> rw [same] <;> decide
        rcases (skipString?_eq_some_iff major_lt).mp skipped with ⟨bytes, string, joined⟩
        exact ⟨bytes, .string isString string, joined⟩
      split at found
      · rename_i isArray
        exact exists_isToken_of_container? .container found fun isHead =>
          .array (isArray ▸ isHead)
      split at found
      · rename_i isMap
        exact exists_isToken_of_container?
          (fun entries =>
            .container (entries.map fun count => min (2 * count) largest)) found
          fun isHead => .map (isMap ▸ isHead)
      split at found
      · rename_i isTag
        exact exists_isToken_of_argument? found fun isHead => .tag (isTag ▸ isHead)
      split at found
      · rename_i isBreak
        cases found
        exact ⟨[breakByte], .breakMark, by rw [isBreak, List.singleton_append]⟩
      · rename_i noNumber noString noArray noMap noTag _
        have isSimple : majorOf head = simpleType := by
          have := majorOf_lt head
          simp only [unsignedType, negativeType, byteStringType, textType, arrayType,
            mapType, tagType, simpleType] at noNumber noString noArray noMap noTag ⊢
          omega
        exact exists_isToken_of_argument? found fun isHead => .simple (isSimple ▸ isHead)

/-! Heads and strings show their type in the first byte, so a token is read by the
branch for its type. -/

theorem IsHead.exists_argument? {major value : Nat} (isHead : IsHead major value bytes)
    (major_lt : major < 8)
    (rest : Bytes) :
    ∃ head tail, bytes ++ rest = head :: tail ∧ majorOf head = major ∧ infoOf head < 28 ∧
      argument? (infoOf head) tail = some (value, rest) := by
  rcases isHead.exists_cons major_lt with ⟨head, tail, rfl, rfl, definite⟩
  exact ⟨head, tail ++ rest, rfl, rfl, definite,
    argument?_infoOf_eq_some_iff.mpr ⟨_, isHead, rfl⟩⟩

theorem IsContainerHead.exists_container? {major : Nat} {items : Option Nat}
    (isHead : IsContainerHead major items bytes) (major_lt : major < 8) (rest : Bytes) :
    ∃ head tail, bytes ++ rest = head :: tail ∧ majorOf head = major ∧
      container? major (head :: tail) = some (items, rest) := by
  have read : container? major (bytes ++ rest) = some (items, rest) :=
    (container?_eq_some_iff major_lt).mpr ⟨_, isHead, rfl⟩
  cases isHead with
  | sized isHead =>
      rcases isHead.exists_cons major_lt with ⟨head, tail, rfl, same, _⟩
      exact ⟨head, tail ++ rest, rfl, same, read⟩
  | openEnded => exact ⟨_, rest, rfl, majorOf_openHead major_lt, read⟩

theorem IsWholeString.exists_skipString? {major : Nat}
    (string : IsWholeString major bytes)
    (major_lt : major < 7) (rest : Bytes) :
    ∃ head tail, bytes ++ rest = head :: tail ∧ majorOf head = major ∧
      skipString? major (head :: tail) = some rest := by
  have first : ∃ head tail, bytes = head :: tail ∧ majorOf head = major := by
    cases string with
    | sized string valid =>
        rcases string with ⟨headBytes, isHead, rfl⟩
        rcases isHead.exists_cons (by omega) with ⟨head, tail, rfl, same, _⟩
        exact ⟨head, _, rfl, same⟩
    | pieces => exact ⟨_, _, rfl, majorOf_openHead (by omega)⟩
  rcases first with ⟨head, tail, rfl, rfl⟩
  exact ⟨head, tail ++ rest, rfl, rfl,
    (skipString?_eq_some_iff major_lt).mpr ⟨_, string, rfl⟩⟩

theorem IsToken.token?_append (isToken : IsToken token bytes) (rest : Bytes) :
    token? (bytes ++ rest) = some (token, rest) := by
  cases isToken with
  | @number major value _ isNumber isHead =>
      have major_lt : major < 8 := by rcases isNumber with rfl | rfl <;> decide
      rcases isHead.exists_argument? major_lt rest with
        ⟨head, tail, joined, same, _, read⟩
      rw [joined, token?]
      simp only [same, isNumber, if_true, read, Option.map_some]
  | @string major _ isString string =>
      have major_lt : major < 7 := by rcases isString with rfl | rfl <;> decide
      have noNumber : ¬(major = unsignedType ∨ major = negativeType) := by
        rcases isString with rfl | rfl <;> decide
      rcases string.exists_skipString? major_lt rest with
        ⟨head, tail, joined, same, skipped⟩
      rw [joined, token?]
      simp only [same, noNumber, isString, if_true, if_false, skipped, Option.map_some]
  | array isHead =>
      rcases isHead.exists_container? (by decide) rest with
        ⟨head, tail, joined, same, read⟩
      rw [joined, token?, same]
      dsimp only
      rw [read]
      rfl
  | map isHead =>
      rcases isHead.exists_container? (by decide) rest with
        ⟨head, tail, joined, same, read⟩
      rw [joined, token?, same]
      dsimp only
      rw [read]
      rfl
  | tag isHead =>
      rcases isHead.exists_argument? (by decide) rest with
        ⟨head, tail, joined, same, _, read⟩
      rw [joined, token?, same]
      dsimp only
      rw [read]
      rfl
  | breakMark => rfl
  | simple isHead =>
      rcases isHead.exists_argument? (by decide) rest with
        ⟨head, tail, joined, same, definite, read⟩
      have noBreak : head ≠ breakByte := by
        rintro rfl
        exact absurd definite (by decide)
      rw [joined, token?, same]
      dsimp only
      rw [if_neg noBreak, read]
      rfl

theorem token?_eq_some_iff :
    token? input = some (token, rest) ↔ ∃ bytes, IsToken token bytes ∧
    input = bytes ++ rest := by
  constructor
  · exact exists_isToken
  · rintro ⟨bytes, isToken, rfl⟩
    exact isToken.token?_append rest

end ContractCode.Cbor
