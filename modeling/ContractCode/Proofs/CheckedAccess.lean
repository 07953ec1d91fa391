import ContractCode.MatchError
import ContractCode.Proofs.Run

/-! # Checked access to bytes

Bytes are read and written through ranges, and what is done to a range that does not fit
is no value and no refusal but a fault: a range outside of the bytes, a copy between
ranges of different lengths, a difference below zero, a place that its type has no room
for. The operations here end with the fault. Functions that are written with them show
by their results that there is none. Sums are not checked: places are 32-bit numbers and
lengths those of bytes in memory, so they have room in a 64-bit word.
-/

namespace ContractCode

inductive Fault where
  | outOfBounds
  | lengthMismatch
  | underflow
  | lossyConversion
deriving Repr, DecidableEq

/-- Why a checked function ends without a value: with an error that it returns, or with
a fault. -/
inductive Stop where
  | failure (error : MatchError)
  | fault (fault : Fault)
deriving Repr, DecidableEq

abbrev Checked : Type → Type := Except Stop

namespace Checked

variable {α β State Item : Type}

/-- The checked function did what the result says, without a fault. -/
def returned : Except MatchError α → Checked α
  | .ok value => .ok value
  | .error error => .error (.failure error)

theorem returned_ne_fault (result : Except MatchError α) (fault : Fault) :
    returned result ≠ .error (.fault fault) := by
  cases result with
  | ok value => nofun
  | error error => nofun

theorem returned_bind (first : Except MatchError α) (next : α → Except MatchError β) :
    returned (first >>= next) = returned first >>= fun value =>
      returned (next value) := by
  cases first with
  | ok value => rfl
  | error error => rfl

theorem bind_of_eq_ok {first : Checked α} {value : α} (found : first = .ok value)
    (next : α → Checked β) : first >>= next = next value := by
  rw [found]
  rfl

/-- Steps without a fault make a run without a fault. -/
theorem foldlM_eq_returned {step : State → Item → Checked State}
    {pureStep : State → Item → Except MatchError State}
    (same : ∀ state item, step state item = returned (pureStep state item))
    (items : List Item)
    (initial : State) :
    items.foldlM step initial = returned (items.foldlM pureStep initial) := by
  induction items generalizing initial with
  | nil => rfl
  | cons item items induction =>
      rw [List.foldlM_cons, List.foldlM_cons, returned_bind, same]
      congr 1
      funext next
      exact induction next

/-- A search whose steps have no fault has none. -/
theorem findSomeM?_eq_ok {find : Item → Checked (Option α)} {pureFind : Item → Option α}
    {items : List Item} (same : ∀ item ∈ items, find item = .ok (pureFind item)) :
    items.findSomeM? find = .ok (items.findSome? pureFind) := by
  induction items with
  | nil => rfl
  | cons item items induction =>
      rcases List.forall_mem_cons.mp same with ⟨first, others⟩
      rw [List.findSomeM?, bind_of_eq_ok first, List.findSome?]
      cases pureFind item with
      | none => exact induction others
      | some found => rfl

theorem exists_of_findSomeM? {find : Item → Checked (Option α)}
    {items : List Item} {found : α}
    (search : items.findSomeM? find = .ok (some found)) :
    ∃ item, find item = .ok (some found) := by
  induction items with
  | nil => cases search
  | cons item items induction =>
      rw [List.findSomeM?] at search
      rcases Run.bind_eq_ok_iff.mp search with ⟨first, here, later⟩
      cases first with
      | none => exact induction later
      | some value =>
          cases later
          exact ⟨item, here⟩

/-! ## Operations -/

def require (condition : Prop) [Decidable condition] (fault : Fault) : Checked Unit :=
  if condition then .ok () else .error (.fault fault)

theorem require_of {condition : Prop} [Decidable condition] (holds : condition)
    (fault : Fault) :
    require condition fault = .ok () := if_pos holds

def subtract (minuend subtrahend : Nat) : Checked Nat := do
  require (subtrahend ≤ minuend) .underflow
  return minuend - subtrahend

/-- The item at an index. -/
def item (items : List α) (index : Nat) : Checked α :=
  match items[index]? with
  | some found => .ok found
  | none => .error (.fault .outOfBounds)

/-- The items from one index up to another. -/
def window (items : List α) (first last : Nat) : Checked (List α) := do
  require (first ≤ last ∧ last ≤ items.length) .outOfBounds
  return (items.drop first).take (last - first)

/-- Copies a value to the place from one index up to another. -/
def copyInto (code : Bytes) (first last : Nat) (value : Bytes) : Checked Bytes := do
  require (first ≤ last ∧ last ≤ code.length) .outOfBounds
  require (value.length = last - first) .lengthMismatch
  return code.take first ++ value ++ code.drop last

/-- Takes out the bytes from one index up to another. -/
def drain (code : Bytes) (first last : Nat) : Checked Bytes := do
  require (first ≤ last ∧ last ≤ code.length) .outOfBounds
  return code.take first ++ code.drop last

/-- The number as one of 32 bits. -/
def word (number : Nat) : Checked UInt32 := do
  require (number < UInt32.size) .lossyConversion
  return UInt32.ofNat number

/-! ## Operations that fit -/

variable {code value : Bytes} {span : Span}

theorem subtract_of_le {minuend subtrahend : Nat} (fits : subtrahend ≤ minuend) :
    subtract minuend subtrahend = .ok (minuend - subtrahend) := by
  rw [subtract, require_of fits]
  rfl

theorem window_of_le {items : List α} {first last : Nat}
    (fits : first ≤ last ∧ last ≤ items.length) :
    window items first last = .ok ((items.drop first).take (last - first)) := by
  rw [window, require_of fits]
  rfl

theorem window_to {items : List α} {last : Nat} (fits : last ≤ items.length) :
    window items 0 last = .ok (items.take last) :=
  window_of_le ⟨Nat.zero_le _, fits⟩

theorem window_from {items : List α} {first : Nat} (fits : first ≤ items.length) :
    window items first items.length = .ok (items.drop first) := by
  rw [window_of_le ⟨fits, Nat.le_refl _⟩, ← List.length_drop, List.take_length]

theorem bounds_of_within (within : span.Within code.length) :
    span.start ≤ span.stop ∧ span.stop ≤ code.length :=
  ⟨Nat.le_add_right _ _, within⟩

theorem stop_sub_start (span : Span) : span.stop - span.start = span.length := by
  rw [Span.stop, Nat.add_sub_cancel_left]

theorem window_span (within : span.Within code.length) :
    window code span.start span.stop = .ok (code.slice span) := by
  rw [window_of_le (bounds_of_within within), stop_sub_start]
  rfl

theorem copyInto_span (within : span.Within code.length)
    (size : value.length = span.length) :
    copyInto code span.start span.stop value = .ok (code.overwrite span.start value) := by
  rw [copyInto, require_of (bounds_of_within within),
    require_of (size.trans (stop_sub_start span).symm), Bytes.overwrite, size]
  rfl

theorem drain_span (within : span.Within code.length) :
    drain code span.start span.stop = .ok (code.remove span) := by
  rw [drain, require_of (bounds_of_within within)]
  rfl

theorem word_of_lt {number : Nat} (fits : number < UInt32.size) :
    word number = .ok (UInt32.ofNat number) := by
  rw [word, require_of fits]
  rfl

/-! ## Values of operations -/

theorem condition_of_require {condition : Prop} [Decidable condition] {fault : Fault}
    (passed : require condition fault = .ok ()) : condition := by
  rw [require] at passed
  split at passed
  · assumption
  · cases passed

theorem length_of_window {items found : List α} {first last : Nat}
    (read : window items first last = .ok found) : first + found.length = last := by
  rcases Run.bind_eq_ok_iff.mp read with ⟨_, passed, taken⟩
  have fits := condition_of_require passed
  cases taken
  rw [List.length_take, List.length_drop]
  omega

theorem toNat_of_word {number : Nat} {narrow : UInt32}
    (converted : word number = .ok narrow) :
    narrow.toNat = number := by
  rcases Run.bind_eq_ok_iff.mp converted with ⟨_, passed, narrowed⟩
  cases narrowed
  exact UInt32.toNat_ofNat_of_lt (condition_of_require passed)

end Checked

end ContractCode
