import ContractCode.Bytes

/-!
Values under text keys, kept in ascending order of the keys. The order is part of the
type, so two dictionaries with the same entries are equal and a written dictionary has
one form. Texts are ordered by code points, which is also the order of their UTF-8
bytes. Main statements: `get?_insert_self`, `get?_insert_of_ne`, `ofList_entries` and
`get?_ofList_eq_some_iff`.
-/

namespace ContractCode

structure Dictionary (Value : Type u) where
  entries : List (String × Value)
  ascending : entries.Pairwise fun earlier later => earlier.1 < later.1

namespace Dictionary

variable {Value : Type u} {Other : Type v}

theorem ext {left right : Dictionary Value} (same : left.entries = right.entries) :
    left = right := by
  cases left
  cases right
  cases same
  rfl

instance [DecidableEq Value] : DecidableEq (Dictionary Value) := fun left right =>
  if same : left.entries = right.entries then isTrue (ext same)
  else isFalse fun equal => same (congrArg entries equal)

instance [Repr Value] : Repr (Dictionary Value) where
  reprPrec dictionary precedence := reprPrec dictionary.entries precedence

def empty : Dictionary Value := ⟨[], .nil⟩

instance : Inhabited (Dictionary Value) := ⟨empty⟩

def isEmpty (dictionary : Dictionary Value) : Bool := dictionary.entries.isEmpty

def size (dictionary : Dictionary Value) : Nat := dictionary.entries.length

def keys (dictionary : Dictionary Value) : List String := dictionary.entries.map Prod.fst

def get? (dictionary : Dictionary Value) (key : String) : Option Value :=
  dictionary.entries.lookup key

def contains (dictionary : Dictionary Value) (key : String) : Bool :=
  (dictionary.get? key).isSome

/-! ## Entries in order

`put` works on the bare entries; `insert` adds the proof that the order is kept. -/

def put (key : String) (value : Value) : List (String × Value) → List (String × Value)
  | [] => [(key, value)]
  | entry :: rest =>
    if key < entry.1 then (key, value) :: entry :: rest
    else if entry.1 < key then entry :: put key value rest
    else (key, value) :: rest

theorem mem_put {key : String} {value : Value} {entries : List (String × Value)}
    {entry : String × Value} (member : entry ∈ put key value entries) :
    entry = (key, value) ∨ entry ∈ entries := by
  induction entries with
  | nil => simpa [put] using member
  | cons head rest induction =>
    simp only [put] at member
    split at member
    · simpa using member
    · split at member
      · rcases List.mem_cons.mp member with here | there
        · simp [here]
        · rcases induction there with new | old
          · exact .inl new
          · exact .inr (List.mem_cons_of_mem _ old)
      · rcases List.mem_cons.mp member with here | there
        · exact .inl here
        · exact .inr (List.mem_cons_of_mem _ there)

theorem eq_of_not_lt {left right : String} (notBefore : ¬ left < right)
    (notAfter : ¬ right < left) :
    left = right :=
  String.le_antisymm (String.not_lt.mp notAfter) (String.not_lt.mp notBefore)

theorem put_ascending (key : String) (value : Value) {entries : List (String × Value)}
    (ascending : entries.Pairwise fun earlier later => earlier.1 < later.1) :
    (put key value entries).Pairwise fun earlier later => earlier.1 < later.1 := by
  induction entries with
  | nil => simp [put]
  | cons head rest induction =>
    rcases List.pairwise_cons.mp ascending with ⟨first, tail⟩
    simp only [put]
    split
    · rename_i before
      refine List.pairwise_cons.mpr ⟨?_, ascending⟩
      intro entry member
      rcases List.mem_cons.mp member with here | there
      · exact here ▸ before
      · exact String.lt_trans before (first entry there)
    · split
      · rename_i after
        refine List.pairwise_cons.mpr ⟨?_, induction tail⟩
        intro entry member
        rcases mem_put member with new | old
        · exact new ▸ after
        · exact first entry old
      · rename_i notBefore notAfter
        have same := eq_of_not_lt notBefore notAfter
        exact List.pairwise_cons.mpr ⟨fun entry member =>
          by simpa [same] using first entry member, tail⟩

theorem lookup_put_self (key : String) (value : Value) (entries : List (String × Value)) :
    (put key value entries).lookup key = some value := by
  induction entries with
  | nil => simp [put]
  | cons head rest induction =>
    simp only [put]
    split
    · simp
    · split
      · rename_i after
        rcases head with ⟨headKey, headValue⟩
        have different : key ≠ headKey := fun equal => String.lt_irrefl _ (equal ▸ after)
        simp [List.lookup_cons, beq_false_of_ne different, induction]
      · simp

theorem lookup_put_of_ne {key other : String} (different : other ≠ key) (value : Value)
    (entries : List (String × Value)) :
    (put key value entries).lookup other = entries.lookup other := by
  induction entries with
  | nil => simp [put, List.lookup_cons, beq_false_of_ne different]
  | cons head rest induction =>
    rcases head with ⟨headKey, headValue⟩
    simp only [put]
    split
    · simp [List.lookup_cons, beq_false_of_ne different]
    · split
      · simp [List.lookup_cons, induction]
      · rename_i notBefore notAfter
        rcases eq_of_not_lt notBefore notAfter with rfl
        simp [List.lookup_cons, beq_false_of_ne different]

theorem put_of_all_lt {key : String} {value : Value} {entries : List (String × Value)}
    (last : ∀ entry ∈ entries, entry.1 < key) :
    put key value entries = entries ++ [(key, value)] := by
  induction entries with
  | nil => rfl
  | cons head rest induction =>
    have after := last head List.mem_cons_self
    simp [put, String.lt_asymm after, after,
      induction fun entry member => last entry (List.mem_cons_of_mem _ member)]

/-- A key that is new is put somewhere between the others. -/
theorem perm_put {key : String} (value : Value) {entries : List (String × Value)}
    (new : ∀ entry ∈ entries, entry.1 ≠ key) :
    (put key value entries).Perm ((key, value) :: entries) := by
  induction entries with
  | nil => exact .refl _
  | cons head rest induction =>
    rcases List.forall_mem_cons.mp new with ⟨here, later⟩
    simp only [put]
    split
    · exact .refl _
    · split
      · exact ((induction later).cons head).trans (.swap _ _ _)
      · rename_i notBefore notAfter
        exact absurd (eq_of_not_lt notBefore notAfter).symm here

/-! ## Insertion -/

def insert (dictionary : Dictionary Value) (key : String) (value : Value) :
    Dictionary Value :=
  ⟨put key value dictionary.entries, put_ascending key value dictionary.ascending⟩

/-- Puts a value under a key that has none; a key that has a value keeps it. -/
def insertNew (dictionary : Dictionary Value) (key : String) (value : Value) :
    Dictionary Value :=
  if dictionary.contains key then dictionary else dictionary.insert key value

/-- The dictionary of some entries, of which the last one of each key counts. -/
def ofList (entries : List (String × Value)) : Dictionary Value :=
  entries.foldl (fun dictionary entry => dictionary.insert entry.1 entry.2) empty

def map (change : Value → Other) (dictionary : Dictionary Value) : Dictionary Other where
  entries := dictionary.entries.map fun entry => (entry.1, change entry.2)
  ascending := List.pairwise_map.mpr dictionary.ascending

@[simp] theorem get?_empty (key : String) :
    (empty : Dictionary Value).get? key = none := rfl

@[simp] theorem get?_insert_self (dictionary : Dictionary Value) (key : String)
    (value : Value) :
    (dictionary.insert key value).get? key = some value :=
  lookup_put_self key value dictionary.entries

theorem get?_insert_of_ne {key other : String} (different : other ≠ key)
    (dictionary : Dictionary Value) (value : Value) :
    (dictionary.insert key value).get? other = dictionary.get? other :=
  lookup_put_of_ne different value dictionary.entries

theorem get?_insertNew_self (dictionary : Dictionary Value) (key : String)
    (value : Value) :
    (dictionary.insertNew key value).get? key =
      (dictionary.get? key).or (some value) := by
  rw [insertNew, contains]
  cases found : dictionary.get? key with
  | none => simp
  | some old => simp [found]

theorem get?_insertNew_of_ne {key other : String} (different : other ≠ key)
    (dictionary : Dictionary Value) (value : Value) :
    (dictionary.insertNew key value).get? other = dictionary.get? other := by
  rw [insertNew]
  split
  · rfl
  · exact get?_insert_of_ne different dictionary value

theorem insertNew_of_contains {dictionary : Dictionary Value} {key : String}
    (contained : dictionary.contains key = true) (value : Value) :
    dictionary.insertNew key value = dictionary :=
  if_pos contained

@[simp] theorem contains_insertNew_self (dictionary : Dictionary Value) (key : String)
    (value : Value) :
    (dictionary.insertNew key value).contains key = true := by
  rw [contains, get?_insertNew_self]
  cases dictionary.get? key with
  | none => rfl
  | some old => rfl

theorem contains_insertNew {dictionary : Dictionary Value} {other : String}
    (contained : dictionary.contains other = true) (key : String) (value : Value) :
    (dictionary.insertNew key value).contains other = true := by
  by_cases same : other = key
  · subst same
    exact contains_insertNew_self dictionary other value
  · rw [contains, get?_insertNew_of_ne same]
    exact contained

/-! ### Keys -/

theorem mem_keys_iff {dictionary : Dictionary Value} {key : String} :
    key ∈ dictionary.keys ↔ dictionary.contains key = true := by
  rw [contains, get?, keys, Option.isSome_iff_ne_none, ne_eq, List.lookup_eq_none_iff]
  simp

theorem nodup_keys (dictionary : Dictionary Value) : dictionary.keys.Nodup := by
  apply List.pairwise_map.mpr
  apply dictionary.ascending.imp
  intro earlier later before same
  exact String.lt_irrefl _ (same ▸ before)

theorem perm_keys_insert {dictionary : Dictionary Value} {key : String}
    (new : key ∉ dictionary.keys)
    (value : Value) :
    (dictionary.insert key value).keys.Perm (key :: dictionary.keys) := by
  apply (perm_put value _).map Prod.fst
  rintro entry member rfl
  exact new (List.mem_map_of_mem member)

theorem mem_keys_insertNew {dictionary : Dictionary Value} {key other : String}
    (value : Value) :
    other ∈ (dictionary.insertNew key value).keys ↔
      other = key ∨ other ∈ dictionary.keys := by
  rw [insertNew]
  split
  · rename_i contained
    have old := mem_keys_iff.mpr contained
    exact ⟨.inr, fun known => known.elim (fun same => same ▸ old) id⟩
  · rename_i absent
    have new : key ∉ dictionary.keys := fun member => absent (mem_keys_iff.mp member)
    rw [(perm_keys_insert new value).mem_iff, List.mem_cons]

theorem get?_map (change : Value → Other) (dictionary : Dictionary Value) (key : String) :
    (dictionary.map change).get? key = (dictionary.get? key).map change := by
  change (dictionary.entries.map fun entry => (entry.1, change entry.2)).lookup key =
    (dictionary.entries.lookup key).map change
  induction dictionary.entries with
  | nil => rfl
  | cons head rest induction =>
    rw [List.map_cons, List.lookup_cons, List.lookup_cons, induction]
    cases key == head.1 with
    | true => rfl
    | false => rfl

theorem eq_empty_of_isEmpty {dictionary : Dictionary Value}
    (isEmpty : dictionary.isEmpty = true) :
    dictionary = empty :=
  ext (List.isEmpty_iff.mp isEmpty)

theorem isEmpty_of_get? {dictionary : Dictionary Value} {key : String} {value : Value}
    (found : dictionary.get? key = some value) : dictionary.isEmpty = false := by
  rw [get?] at found
  rw [isEmpty]
  cases entries : dictionary.entries with
  | nil =>
    rw [entries] at found
    cases found
  | cons head rest => rfl

theorem foldl_insert_entries (entries : List (String × Value))
    (dictionary : Dictionary Value)
    (ascending : (dictionary.entries ++ entries).Pairwise fun earlier later =>
      earlier.1 < later.1) :
    (entries.foldl (fun dictionary entry => dictionary.insert entry.1 entry.2)
      dictionary).entries =
      dictionary.entries ++ entries := by
  induction entries generalizing dictionary with
  | nil => simp
  | cons entry entries induction =>
    have last : ∀ earlier ∈ dictionary.entries, earlier.1 < entry.1 :=
      fun earlier member =>
      (List.pairwise_append.mp ascending).2.2 earlier member entry List.mem_cons_self
    have placed : (dictionary.insert entry.1 entry.2).entries =
        dictionary.entries ++ [entry] :=
      put_of_all_lt last
    rw [List.foldl_cons, induction]
    · rw [placed]
      simp
    · rw [placed]
      simpa using ascending

/-- Among entries with distinct keys every one counts, and a key that none has keeps its
value. -/
theorem get?_foldl_insert {entries : List (String × Value)}
    (distinct : (entries.map Prod.fst).Nodup) {dictionary : Dictionary Value}
    {key : String}
    {value : Value} :
    (entries.foldl (fun dictionary entry => dictionary.insert entry.1 entry.2)
      dictionary).get? key =
        some value ↔
      (key, value) ∈ entries ∨ key ∉ entries.map Prod.fst ∧
      dictionary.get? key = some value := by
  induction entries generalizing dictionary with
  | nil => simp
  | cons entry entries induction =>
    rw [List.map_cons, List.nodup_cons] at distinct
    rw [List.foldl_cons, induction distinct.2]
    by_cases here : key = entry.1
    · subst here
      have new : (entry.1, value) ∉ entries := fun member =>
        distinct.1 (List.mem_map.mpr ⟨_, member, rfl⟩)
      simp [new, distinct.1, Prod.ext_iff, eq_comm]
    · rw [get?_insert_of_ne here]
      simp [here, Prod.ext_iff]

theorem get?_ofList_eq_some_iff {entries : List (String × Value)}
    (distinct : (entries.map Prod.fst).Nodup) {key : String} {value : Value} :
    (ofList entries).get? key = some value ↔ (key, value) ∈ entries := by
  rw [ofList, get?_foldl_insert distinct]
  simp

theorem ofList_entries (dictionary : Dictionary Value) :
    ofList dictionary.entries = dictionary :=
  ext (foldl_insert_entries dictionary.entries empty
    (by simpa [empty] using dictionary.ascending))

end Dictionary

end ContractCode
