/-!
Code is a list of bytes, and everything that happens to code happens to windows of it. A
`Span` names a window; `slice` reads it, `overwrite` puts bytes of the same length in
its place, and `remove` closes the gap it leaves. The lemmas say what each operation
does to the length and to every single index.
-/

namespace ContractCode

abbrev Bytes := List UInt8

/-! A span is given by its first index and its length, so every span is well formed and
an empty one still has a place. -/

structure Span where
  start : Nat
  length : Nat
deriving Repr, DecidableEq

namespace Span

/-- The first index after the span. -/
def stop (span : Span) : Nat := span.start + span.length

def Within (span : Span) (size : Nat) : Prop := span.stop ≤ size

instance (span : Span) (size : Nat) : Decidable (span.Within size) :=
  inferInstanceAs (Decidable (span.stop ≤ size))

theorem Within.start_le {span : Span} {size : Nat} (within : span.Within size) :
    span.start ≤ size :=
  Nat.le_trans (Nat.le_add_right _ _) within

def Covers (span : Span) (index : Nat) : Prop := span.start ≤ index ∧ index < span.stop

instance (span : Span) (index : Nat) : Decidable (span.Covers index) :=
  inferInstanceAs (Decidable (span.start ≤ index ∧ index < span.stop))

def Disjoint (left right : Span) : Prop :=
  ∀ index, left.Covers index → ¬ right.Covers index

theorem disjoint_iff {left right : Span} :
    left.Disjoint right ↔
      left.length = 0 ∨ right.length = 0 ∨ left.stop ≤ right.start ∨
        right.stop ≤ left.start := by
  simp only [Disjoint, Covers, stop]
  constructor
  · intro disjoint
    have first := disjoint left.start
    have second := disjoint right.start
    omega
  · intro apart index inLeft
    omega

instance (left right : Span) :
    Decidable (left.Disjoint right) := decidable_of_iff' _ disjoint_iff

theorem Disjoint.symm {left right : Span} (disjoint : left.Disjoint right) :
    right.Disjoint left :=
  fun index inRight inLeft => disjoint index inLeft inRight

/-- A span that starts no higher than a disjoint one lies below it. -/
theorem Disjoint.lt_of_covers {upper lower : Span} {index : Nat}
    (disjoint : lower.Disjoint upper)
    (below : lower.start ≤ upper.start) (filled : 0 < upper.length)
    (covers : lower.Covers index) :
    index < upper.start := by
  have apart := disjoint_iff.mp disjoint
  simp only [Covers, stop] at covers apart
  omega

/-- A span that starts no higher than a disjoint filled one ends before it. -/
theorem Disjoint.stop_le {upper lower : Span} (disjoint : lower.Disjoint upper)
    (below : lower.start ≤ upper.start) (filled : 0 < upper.length) :
    lower.stop ≤ upper.start := by
  have apart := disjoint_iff.mp disjoint
  simp only [stop] at apart ⊢
  omega

end Span

namespace Bytes

/-- The bytes of a span, as far as the code reaches. -/
def slice (code : Bytes) (span : Span) : Bytes :=
  (code.drop span.start).take span.length

def slice? (code : Bytes) (span : Span) : Option Bytes :=
  if span.Within code.length then some (code.slice span) else none

def overwrite (code : Bytes) (start : Nat) (value : Bytes) : Bytes :=
  code.take start ++ value ++ code.drop (start + value.length)

def remove (code : Bytes) (span : Span) : Bytes :=
  code.take span.start ++ code.drop span.stop

def allZero (bytes : Bytes) : Bool := bytes.all (· == 0)

/-! ## Lengths -/

theorem length_slice {code : Bytes} {span : Span} (within : span.Within code.length) :
    (code.slice span).length = span.length := by
  simp only [Span.Within, Span.stop] at within
  simp only [slice, List.length_take, List.length_drop]
  omega

theorem slice?_eq_some_iff {code : Bytes} {span : Span} {value : Bytes} :
    code.slice? span = some value ↔ span.Within code.length ∧
    value = code.slice span := by
  simp only [slice?]
  split <;> simp_all [eq_comm]

theorem slice?_eq_none_iff {code : Bytes} {span : Span} :
    code.slice? span = none ↔ ¬ span.Within code.length := by
  simp only [slice?]
  split <;> simp_all

theorem length_of_slice? {code value : Bytes} {span : Span}
    (found : code.slice? span = some value) : value.length = span.length := by
  rcases slice?_eq_some_iff.mp found with ⟨within, rfl⟩
  exact length_slice within

theorem length_overwrite {code value : Bytes} {start : Nat}
    (reaches : start ≤ code.length) :
    (code.overwrite start value).length = max code.length (start + value.length) := by
  simp only [overwrite, List.length_append, List.length_take, List.length_drop]
  omega

/-- A value that is put where the code ends goes behind it. -/
theorem overwrite_length (code value : Bytes) :
    code.overwrite code.length value = code ++ value := by
  simp [overwrite]

theorem length_remove {code : Bytes} {span : Span} (within : span.Within code.length) :
    (code.remove span).length + span.length = code.length := by
  simp only [Span.Within, Span.stop] at within
  simp only [remove, Span.stop, List.length_append, List.length_take, List.length_drop]
  omega

/-! ## Single indices -/

theorem getElem?_slice (code : Bytes) (span : Span) (index : Nat) :
    (code.slice span)[index]? = if index < span.length then code[span.start + index]?
    else none := by
  simp only [slice, List.getElem?_take, List.getElem?_drop]

theorem getElem?_slice_of_covers (code : Bytes) {span : Span} {index : Nat}
    (covers : span.Covers index) :
    (code.slice span)[index - span.start]? = code[index]? := by
  simp only [Span.Covers, Span.stop] at covers
  rw [getElem?_slice, if_pos (by omega), Nat.add_sub_cancel' covers.1]

theorem slice_congr {code other : Bytes} {span : Span}
    (same : ∀ index, span.Covers index → code[index]? = other[index]?) :
    code.slice span = other.slice span := by
  apply List.ext_getElem?
  intro offset
  rw [getElem?_slice, getElem?_slice]
  split
  · rename_i inside
    exact same _ ⟨Nat.le_add_right _ _, Nat.add_lt_add_left inside _⟩
  · rfl

theorem slice_append_of_within {code : Bytes} {span : Span}
    (within : span.Within code.length)
    (more : Bytes) : slice (code ++ more) span = code.slice span := by
  apply slice_congr
  intro index covers
  exact List.getElem?_append_left (Nat.lt_of_lt_of_le covers.2 within)

theorem getElem?_eq_of_slice {code other : Bytes} {span : Span}
    (same : code.slice span = other.slice span) {index : Nat}
    (covers : span.Covers index) :
    code[index]? = other[index]? := by
  rw [← getElem?_slice_of_covers code covers, same, getElem?_slice_of_covers other covers]

theorem getElem?_of_allZero_slice {code : Bytes} {span : Span} {index : Nat}
    (zero : (code.slice span).allZero = true) (covers : span.Covers index)
    (inside : index < code.length) : code[index]? = some 0 := by
  have byte := getElem?_slice_of_covers code covers
  rw [List.getElem?_eq_getElem inside] at byte
  have isZero := List.all_eq_true.mp zero _ (List.mem_of_getElem? byte)
  rw [List.getElem?_eq_getElem inside, eq_of_beq isZero]

theorem getElem?_overwrite {code value : Bytes} {start : Nat}
    (reaches : start ≤ code.length)
    (index : Nat) :
    (code.overwrite start value)[index]? =
      if start ≤ index ∧ index < start + value.length then value[index - start]?
      else code[index]? := by
  simp only [overwrite, List.append_assoc, List.getElem?_append, List.length_take,
    List.getElem?_take, List.getElem?_drop]
  have startFits : min start code.length = start := by omega
  rw [startFits]
  by_cases before : index < start
  · simp [before, show ¬ start ≤ index by omega]
  · by_cases inside : index - start < value.length
    · simp [before, inside, show start ≤ index by omega,
        show index < start + value.length by omega]
    · have position :
          start + value.length + (index - start - value.length) = index := by omega
      simp [before, inside, show ¬ index < start + value.length by omega, position]

theorem overwrite_slice {code : Bytes} {span : Span} (within : span.Within code.length) :
    code.overwrite span.start (code.slice span) = code := by
  apply List.ext_getElem?
  intro index
  simp only [Span.Within, Span.stop] at within
  have size : (code.slice span).length = span.length := length_slice within
  rw [getElem?_overwrite (by omega), size, getElem?_slice]
  split
  · rename_i inside
    simp [show index - span.start < span.length by omega,
      show span.start + (index - span.start) = index by omega]
  · rfl

end Bytes

end ContractCode
