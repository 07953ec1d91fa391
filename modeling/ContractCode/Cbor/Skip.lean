import ContractCode.Cbor.Head

/-!
Passing over one CBOR item of any type. The input is taken token by token, a token being
a head with the bytes that belong to it alone. What is still to come is kept as two
counters for the innermost containers, the items that are due and the indefinite
containers that are open, and as a stack for the containers around them. The counters
are merged for containers that follow each other, so a tag is passed over without being
counted, and a break where no container is open counts as an item.
-/

namespace ContractCode.Cbor

/-! ## Tokens -/

inductive Token where
  /-- A number, a string or a simple value. -/
  | leaf
  /-- The head of an array or map that holds so many items, or items up to a break. -/
  | container (items : Option Nat)
  | tag
  | breakMark
deriving Repr, DecidableEq

/-- The pieces of a string of indefinite length, up to and with the break. -/
def pieces? (major : Nat) (input : Bytes) : Option Bytes :=
  match input with
  | [] => none
  | head :: rest =>
    if head = breakByte then some rest
    else
      match _found : string? major (head :: rest) with
      | none => none
      | some (_, left) => pieces? major left
termination_by input.length
decreasing_by exact length_string? _found

theorem length_pieces? {major : Nat} {input rest : Bytes}
    (found : pieces? major input = some rest) :
    rest.length < input.length := by
  induction size : input.length using Nat.strongRecOn generalizing input with
  | _ length induction =>
    unfold pieces? at found
    split at found
    · simp at found
    · split at found
      · simp only [Option.some.injEq] at found
        simp [← size, found]
      · split at found
        · simp at found
        · rename_i content left read
          have shorter := length_string? read
          have := induction left.length (by omega) found rfl
          omega

def skipString? (major : Nat) : Bytes → Option Bytes
  | [] => none
  | head :: rest =>
    if infoOf head = indefiniteInfo then pieces? major rest
    else (string? major (head :: rest)).map Prod.snd

def token? : Bytes → Option (Token × Bytes)
  | [] => none
  | head :: rest =>
    let major := majorOf head
    if major = unsignedType ∨ major = negativeType then
      (argument? (infoOf head) rest).map fun (_, rest) => (.leaf, rest)
    else if major = byteStringType ∨ major = textType then
      (skipString? major (head :: rest)).map fun rest => (.leaf, rest)
    else if major = arrayType then
      (container? major (head :: rest)).map fun (items, rest) => (.container items, rest)
    else if major = mapType then
      (container? major (head :: rest)).map fun (entries, rest) =>
        (.container (entries.map fun count => min (2 * count) largest), rest)
    else if major = tagType then
      (argument? (infoOf head) rest).map fun (_, rest) => (.tag, rest)
    else if head = breakByte then some (.breakMark, rest)
    else (argument? (infoOf head) rest).map fun (_, rest) => (.leaf, rest)

theorem length_token? {input rest : Bytes} {token : Token}
    (found : token? input = some (token, rest)) : rest.length < input.length := by
  match input with
  | [] => simp [token?] at found
  | head :: tail =>
    have ofArgument {result : Token} (read : (argument? (infoOf head) tail).map
        (fun pair => (result, pair.2)) = some (token, rest)) : rest.length <
          (head :: tail).length := by
      rcases Option.map_eq_some_iff.mp read with ⟨⟨value, left⟩, taken, equal⟩
      have := length_argument? taken
      simp only [Prod.mk.injEq] at equal
      simp only [List.length_cons, ← equal.2]
      omega
    have ofContainer (change : Option Nat → Token) (read : (container? (majorOf head)
        (head :: tail)).map (fun pair => (change pair.1, pair.2)) = some (token, rest)) :
        rest.length < (head :: tail).length := by
      rcases Option.map_eq_some_iff.mp read with ⟨⟨value, left⟩, taken, equal⟩
      have := length_container? taken
      simp only [Prod.mk.injEq] at equal
      rw [← equal.2]
      exact this
    simp only [token?] at found
    split at found
    · exact ofArgument found
    split at found
    · rcases Option.map_eq_some_iff.mp found with ⟨left, skipped, equal⟩
      simp only [Prod.mk.injEq] at equal
      rcases equal with ⟨-, rfl⟩
      simp only [skipString?] at skipped
      split at skipped
      · have := length_pieces? skipped
        simp only [List.length_cons]
        omega
      · rcases Option.map_eq_some_iff.mp skipped with ⟨⟨content, left⟩, read, equal⟩
        simp only at equal
        exact equal ▸ length_string? read
    split at found
    · exact ofContainer .container found
    split at found
    · exact ofContainer
        (fun entries =>
          .container (entries.map fun count => min (2 * count) largest)) found
    split at found
    · exact ofArgument found
    split at found
    · simp only [Option.some.injEq, Prod.mk.injEq] at found
      simp [found.2]
    · exact ofArgument found

/-! ## Items that are still due -/

/-- The items that are due, the open indefinite containers, and the containers around
them, the innermost first: `some` counts the items that are due there, `none` is open
until a break. -/
structure Due where
  items : Nat
  openEnded : Nat
  around : List (Option Nat)
deriving Repr, DecidableEq

namespace Due

def one : Due := ⟨1, 0, []⟩

def isDone (due : Due) : Bool :=
  due.items == 0 && due.openEnded == 0 && due.around.isEmpty

def isOutside (due : Due) : Bool := due.items == 0 && due.openEnded == 0

def enter (due : Due) : Option Nat → Due
  | some 0 => due
  | some count =>
    if due.isOutside then { due with around := some count :: due.around }
    else { due with items := min (due.items + count) largest }
  | none =>
    if due.isOutside then { due with around := none :: due.around }
    else if due.items < 2 then { due with openEnded := min (due.openEnded + 1) largest }
    else
      ⟨0, 0,
        none :: some (due.items - 1) :: List.replicate due.openEnded none ++ due.around⟩

def close (due : Due) : Due :=
  if due.isOutside then
    match due.around with
    | none :: around => { due with around }
    | _ => due
  else { due with openEnded := due.openEnded - 1 }

def withoutEmpty : List (Option Nat) → List (Option Nat)
  | some 0 :: around => withoutEmpty around
  | around => around

/-- One item has been passed; `none` if it was the last of all. -/
def count? (due : Due) : Option Due :=
  if due.isOutside then
    match withoutEmpty due.around with
    | [] => none
    | some count :: around => some { due with around := some (count - 1) :: around }
    | none :: around => some { due with around := none :: around }
  else some { due with items := due.items - 1 }

def after? (due : Due) : Token → Option Due
  | .leaf => due.count?
  | .container items => (due.enter items).count?
  | .tag => some due
  | .breakMark => due.close.count?

end Due

def skipDue? (due : Due) (input : Bytes) : Option Bytes :=
  if due.isDone then some input
  else
    match _found : token? input with
    | none => none
    | some (token, rest) =>
      match due.after? token with
      | none => some rest
      | some next => skipDue? next rest
termination_by input.length
decreasing_by exact length_token? _found

def skip? (input : Bytes) : Option Bytes := skipDue? .one input

end ContractCode.Cbor
