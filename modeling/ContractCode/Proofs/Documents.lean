import ContractCode.Artifacts
import ContractCode.MatchResult
import Mathlib.Data.List.Forall2
import Mathlib.Data.List.Sort

/-! # Stored documents

What was found for code and what a compiler tells about it is kept as JSON. A store may
keep the members of an object by their names only, and gives a document back with its
members in other places. No reader looks at the order of members, so what was written is
what is read.
-/

namespace ContractCode

/-! ## Entries in any order -/

theorem lookup_eq_some_iff_mem {Value : Type u} {entries : List (String × Value)}
    (distinct : (entries.map Prod.fst).Nodup) {key : String} {value : Value} :
    entries.lookup key = some value ↔ (key, value) ∈ entries := by
  induction entries with
  | nil => simp
  | cons entry entries induction =>
      rcases entry with ⟨name, first⟩
      rcases List.nodup_cons.mp distinct with ⟨new, restDistinct⟩
      rw [List.lookup_cons, List.mem_cons, ← induction restDistinct, Prod.mk.injEq]
      by_cases here : key = name
      · subst here
        have absent : entries.lookup key ≠ some value := fun found =>
          new (List.mem_map.mpr ⟨(key, value), (induction restDistinct).mp found, rfl⟩)
        simp [absent, eq_comm]
      · simp [here, beq_false_of_ne here]

theorem lookup_eq_of_perm {Value : Type u} {entries others : List (String × Value)}
    (distinct : (entries.map Prod.fst).Nodup) (same : entries.Perm others)
    (key : String) :
    entries.lookup key = others.lookup key := by
  have distinctOthers := (same.map Prod.fst).nodup_iff.mp distinct
  apply Option.ext
  intro value
  rw [lookup_eq_some_iff_mem distinct, lookup_eq_some_iff_mem distinctOthers,
    same.mem_iff]

namespace Dictionary

variable {Value : Type u} {entries others : List (String × Value)}

theorem mem_entries_iff {dictionary : Dictionary Value} {key : String} {value : Value} :
    (key, value) ∈ dictionary.entries ↔ dictionary.get? key = some value :=
  (lookup_eq_some_iff_mem dictionary.nodup_keys).symm

theorem ofList_eq_of_perm (distinct : (entries.map Prod.fst).Nodup)
    (same : entries.Perm others) :
    ofList entries = ofList others := by
  have distinctOthers := (same.map Prod.fst).nodup_iff.mp distinct
  apply ext
  have antisymmetric : Std.Antisymm fun left right : String × Value => left.1 < right.1 :=
    ⟨fun _ _ before after => absurd after (String.lt_asymm before)⟩
  have irreflexive : Std.Irrefl fun left right : String × Value => left.1 < right.1 :=
    ⟨fun _ => String.lt_irrefl _⟩
  apply List.Pairwise.eq_of_mem_iff (ofList entries).ascending (ofList others).ascending
  rintro ⟨key, value⟩
  rw [mem_entries_iff, mem_entries_iff, get?_ofList_eq_some_iff distinct,
    get?_ofList_eq_some_iff distinctOthers, same.mem_iff]

end Dictionary

namespace Json

/-! ## Reordered values -/

/-- The same value with members of its objects in other places. An object that has a
name twice is not reordered, as it matters there which member comes first. -/
inductive Reordered : Json → Json → Prop
  | refl (json : Json) : Reordered json json
  | trans {first second third : Json} (one : Reordered first second)
      (other : Reordered second third) :
      Reordered first third
  | members {members others : List (String × Json)}
      (distinct : (members.map Prod.fst).Nodup)
      (same : members.Perm others) : Reordered (.object members) (.object others)
  | item {json other : Json} (before after : List Json) (inside : Reordered json other) :
      Reordered (.array (before ++ json :: after)) (.array (before ++ other :: after))
  | member {json other : Json} (before after : List (String × Json)) (name : String)
      (inside : Reordered json other) :
      Reordered (.object (before ++ (name, json) :: after))
      (.object (before ++ (name, other) :: after))

/-- The reader reads the same from a value wherever the members of its objects are. -/
def IgnoresOrder (read : Json → Option α) : Prop :=
  ∀ ⦃json other⦄, Reordered json other → read json = read other

namespace IgnoresOrder

variable {α : Type u} {β : Type v} {read : Json → Option α}

/-- It is enough to look at values that differ in one place, and there the values inside
may be taken to read the same. -/
theorem of_steps
    (members : ∀ {members others : List (String × Json)}, (members.map Prod.fst).Nodup →
      members.Perm others → read (.object members) = read (.object others))
    (item : ∀ {json other : Json} (before after : List Json), Reordered json other →
      read json = read other →
      read (.array (before ++ json :: after)) = read (.array (before ++ other :: after)))
    (member : ∀ {json other : Json} (before after : List (String × Json)) (name : String),
      Reordered json other → read json = read other →
      read (.object (before ++ (name, json) :: after)) =
        read (.object (before ++ (name, other) :: after))) : IgnoresOrder read := by
  intro json other reordered
  induction reordered with
  | refl json => rfl
  | trans _ _ first second => exact first.trans second
  | members distinct same => exact members distinct same
  | item before after inside induction => exact item before after inside induction
  | member before after name inside induction =>
      exact member before after name inside induction

/-! ## Readers of single values -/

theorem of_single (noArray : ∀ items, read (.array items) = none)
    (noObject : ∀ members, read (.object members) = none) : IgnoresOrder read := by
  apply of_steps
  · intro members others _ _
    rw [noObject, noObject]
  · intro json other before after _ _
    rw [noArray, noArray]
  · intro json other before after name _ _
    rw [noObject, noObject]

theorem bind (ignores : IgnoresOrder read) (next : α → Option β) :
    IgnoresOrder fun json => (read json).bind next := by
  intro json other reordered
  exact congrArg (Option.bind · next) (ignores reordered)

theorem text : IgnoresOrder text? := of_single (fun _ => rfl) fun _ => rfl

theorem natural : IgnoresOrder natural? := of_single (fun _ => rfl) fun _ => rfl

theorem word : IgnoresOrder word? := natural.bind _

end IgnoresOrder

/-! ## Null -/

def isNull : Json → Bool
  | .null => true
  | _ => false

theorem Reordered.isNull_eq {json other : Json} (reordered : Reordered json other) :
    json.isNull = other.isNull := by
  induction reordered with
  | refl json => rfl
  | trans _ _ first second => exact first.trans second
  | members | item | member => rfl

theorem optional?_some (read : Json → Option α) (json : Json) :
    optional? read (some json) =
      if json.isNull then some none else (read json).map some := by
  cases json <;> rfl

theorem name?_object_singleton (name : String) (json : Json) :
    name? (.object [(name, json)]) = if json.isNull then some name else none := by
  cases json <;> rfl

theorem name?_object_of_length {members : List (String × Json)}
    (several : members.length ≠ 1) :
    name? (.object members) = none := by
  rw [name?]
  · nofun
  · rintro name ⟨⟩
    exact several rfl

theorem IgnoresOrder.name : IgnoresOrder name? := by
  apply of_steps
  · intro members others _ same
    by_cases single : members.length = 1
    · rcases List.length_eq_one_iff.mp single with ⟨member, rfl⟩
      rw [List.singleton_perm.mp same]
    · rw [name?_object_of_length single, name?_object_of_length (same.length_eq ▸ single)]
  · intro json other before after _ _
    rfl
  · intro json other before after name inside _
    by_cases single : before.length + after.length = 0
    · rw [List.length_eq_zero_iff.mp (Nat.eq_zero_of_add_eq_zero_right single),
        List.length_eq_zero_iff.mp (Nat.eq_zero_of_add_eq_zero_left single)]
      change name? (.object [(name, json)]) = name? (.object [(name, other)])
      rw [name?_object_singleton, name?_object_singleton, inside.isNull_eq]
    · have several (value : Json) : (before ++ (name, value) :: after).length ≠ 1 := by
        rw [List.length_append, List.length_cons]
        omega
      rw [name?_object_of_length (several json), name?_object_of_length (several other)]

/-! ## Lists and dictionaries -/

section

variable {α : Type u} {β : Type v} {read : α → Option β} {item : α}
  {items others : List α}
  {values : List β}

theorem readAll_cons_eq_some_iff :
    readAll read (item :: items) = some values ↔
      ∃ value rest, read item = some value ∧ readAll read items = some rest ∧
        values = value :: rest := by
  rw [readAll]
  cases read item with
  | none => simp
  | some value =>
      cases readAll read items with
      | none => simp
      | some rest => simp [eq_comm]

theorem readAll_replace {other : α} (same : read item = read other)
    (before after : List α) :
    readAll read (before ++ item :: after) = readAll read (before ++ other :: after) := by
  induction before with
  | nil => simp only [List.nil_append, readAll, same]
  | cons head rest induction => simp only [List.cons_append, readAll, induction]

theorem readAll_perm (same : items.Perm others)
    (found : readAll read items = some values) :
    ∃ rearranged, readAll read others = some rearranged ∧ values.Perm rearranged := by
  induction same generalizing values with
  | nil => exact ⟨values, found, .refl _⟩
  | cons item _ induction =>
      rcases readAll_cons_eq_some_iff.mp found with ⟨value, rest, here, there, rfl⟩
      rcases induction there with ⟨rearranged, found, same⟩
      exact ⟨value :: rearranged,
        readAll_cons_eq_some_iff.mpr ⟨value, rearranged, here, found, rfl⟩,
        same.cons value⟩
  | swap second first items =>
      rcases readAll_cons_eq_some_iff.mp found with ⟨value, _, here, there, rfl⟩
      rcases readAll_cons_eq_some_iff.mp there with ⟨next, rest, afterwards, last, rfl⟩
      have swapped := readAll_cons_eq_some_iff.mpr ⟨value, rest, here, last, rfl⟩
      exact ⟨next :: value :: rest,
        readAll_cons_eq_some_iff.mpr ⟨next, _, afterwards, swapped, rfl⟩, .swap _ _ _⟩
  | trans _ _ one other =>
      rcases one found with ⟨middle, foundMiddle, sameMiddle⟩
      rcases other foundMiddle with ⟨rearranged, foundLast, sameLast⟩
      exact ⟨rearranged, foundLast, sameMiddle.trans sameLast⟩

end

/-- Reads the value of a member and keeps its name. -/
def namedValue? (read : Json → Option α) (member : String × Json) : Option (String × α) :=
  (read member.2).map fun value => (member.1, value)

theorem names_of_readAll {read : Json → Option α} {members : List (String × Json)}
    {entries : List (String × α)}
    (found : readAll (namedValue? read) members = some entries) :
    entries.map Prod.fst = members.map Prod.fst := by
  induction members generalizing entries with
  | nil =>
      cases found
      rfl
  | cons member members induction =>
      rcases readAll_cons_eq_some_iff.mp found with ⟨entry, rest, here, there, rfl⟩
      rcases Option.map_eq_some_iff.mp here with ⟨value, _, rfl⟩
      rw [List.map_cons, List.map_cons, induction there]

theorem dictionary?_of_perm {read : Json → Option α}
    {members others : List (String × Json)}
    (distinct : (members.map Prod.fst).Nodup) (same : members.Perm others)
    {dictionary : Dictionary α}
    (found : dictionary? read (.object members) = some dictionary) :
    dictionary? read (.object others) = some dictionary := by
  rcases Option.map_eq_some_iff.mp found with ⟨entries, foundEntries, rfl⟩
  rcases readAll_perm same foundEntries with ⟨rearranged, foundRearranged, sameEntries⟩
  rw [← names_of_readAll foundEntries] at distinct
  rw [Dictionary.ofList_eq_of_perm distinct sameEntries]
  exact Option.map_eq_some_iff.mpr ⟨rearranged, foundRearranged, rfl⟩

namespace IgnoresOrder

variable {α : Type u} {read : Json → Option α}

theorem list (ignores : IgnoresOrder read) : IgnoresOrder (list? read) := by
  apply of_steps
  · intro members others _ _
    rfl
  · intro json other before after inside _
    exact readAll_replace (ignores inside) before after
  · intro json other before after name _ _
    rfl

theorem dictionary (ignores : IgnoresOrder read) : IgnoresOrder (dictionary? read) := by
  apply of_steps
  · intro members others distinct same
    have distinctOthers := (same.map Prod.fst).nodup_iff.mp distinct
    apply Option.ext
    intro dictionary
    exact ⟨dictionary?_of_perm distinct same,
      dictionary?_of_perm distinctOthers same.symm⟩
  · intro json other before after _ _
    rfl
  · intro json other before after name inside _
    have entry : namedValue? read (name, json) = namedValue? read (name, other) :=
      congrArg (Option.map _) (ignores inside)
    exact congrArg (Option.map _) (readAll_replace entry before after)

end IgnoresOrder

/-! ## Records -/

/-- Every field is missing in both, or there in both and reordered. -/
abbrev FieldsReordered (fields others : List (Option Json)) : Prop :=
  List.Forall₂ (Option.Rel Reordered) fields others

theorem rel_refl (field : Option Json) : Option.Rel Reordered field field := by
  cases field with
  | none => exact .none
  | some json => exact .some (.refl json)

theorem fieldsReordered_refl (fields : List (Option Json)) :
    FieldsReordered fields fields :=
  List.forall₂_same.mpr fun field _ => rel_refl field

theorem rel_lookup_member {json other : Json} (before after : List (String × Json))
    (name : String)
    (inside : Reordered json other) (key : String) :
    Option.Rel Reordered ((before ++ (name, json) :: after).lookup key)
      ((before ++ (name, other) :: after).lookup key) := by
  rw [List.lookup_append, List.lookup_append, List.lookup_cons, List.lookup_cons]
  cases before.lookup key with
  | some found => exact .some (.refl found)
  | none =>
      cases key == name with
      | true => exact .some inside
      | false => exact rel_refl _

namespace IgnoresOrder

variable {α : Type u} {read : Json → Option α}

theorem optional (ignores : IgnoresOrder read) {field other : Option Json}
    (same : Option.Rel Reordered field other) :
    optional? read field = optional? read other := by
  cases same with
  | none => rfl
  | some inside => rw [optional?_some, optional?_some, inside.isNull_eq, ignores inside]

theorem defaulted (ignores : IgnoresOrder read) (default : α) {field other : Option Json}
    (same : Option.Rel Reordered field other) :
    defaulted? default read field = defaulted? default read other := by
  cases same with
  | none => rfl
  | some inside => exact ignores inside

/-- A record is read in the same way from reordered fields, which are as many as it has
names. -/
theorem record {take : List (Option Json) → Option α} (names : List String)
    (ignores : ∀ fields others, fields.length = names.length →
      FieldsReordered fields others →
      take fields = take others) : IgnoresOrder fun json =>
        (fields? names json).bind take := by
  apply of_steps
  · intro members others distinct same
    have lookups : (names.map fun name => members.lookup name) =
        names.map fun name => others.lookup name :=
      List.map_congr_left fun name _ => lookup_eq_of_perm distinct same name
    rw [fields?_object, fields?_object, lookups]
  · intro json other before after inside _
    have length : (before ++ json :: after).length =
        (before ++ other :: after).length := by simp
    change (positional? names _).bind take = (positional? names _).bind take
    rw [positional?, positional?, length]
    split
    · rename_i fits
      apply ignores
      · rw [List.length_append, List.length_map, List.length_replicate, length]
        exact Nat.add_sub_cancel' fits
      · rw [List.map_append, List.map_append, List.map_cons, List.map_cons]
        apply List.rel_append _ (fieldsReordered_refl _)
        exact List.rel_append (fieldsReordered_refl _)
          (.cons (.some inside) (fieldsReordered_refl _))
    · rfl
  · intro json other before after name inside _
    apply ignores
    · exact List.length_map _
    · apply List.forall₂_map_left_iff.mpr
      apply List.forall₂_map_right_iff.mpr
      apply List.forall₂_same.mpr
      intro key _
      exact rel_lookup_member before after name inside key

end IgnoresOrder

end Json

/-! ## Readers of documents -/

open Json (IgnoresOrder)

theorem Reference.ignoresOrder : IgnoresOrder Reference.ofJson? := by
  apply IgnoresOrder.record ["start", "length"]
  intro fields others count related
  match fields, others, related, count with
  | [_, _], _, .cons start (.cons length .nil), _ =>
      cases start with
      | none => rfl
      | some start =>
          cases length with
          | none => rfl
          | some length => simp only [IgnoresOrder.word start, IgnoresOrder.word length]

theorem PlacedChunk.ignoresOrder : IgnoresOrder PlacedChunk.ofJson? := by
  apply IgnoresOrder.record ["value", "offset"]
  intro fields others count related
  match fields, others, related, count with
  | [_, _], _, .cons value (.cons offset .nil), _ =>
      cases value with
      | none => rfl
      | some value =>
          cases offset with
          | none => rfl
          | some offset => simp only [IgnoresOrder.text value, IgnoresOrder.word offset]

theorem CodeArtifacts.ignoresOrder : IgnoresOrder CodeArtifacts.ofJson? := by
  have references := Reference.ignoresOrder.list
  apply IgnoresOrder.record ["linkReferences", "immutableReferences", "cborAuxdata"]
  intro fields others count related
  match fields, others, related, count with
  | [_, _, _], _, .cons links (.cons immutables (.cons chunks .nil)), _ =>
      simp only [references.dictionary.dictionary.defaulted .empty links,
        references.dictionary.defaulted .empty immutables,
        PlacedChunk.ignoresOrder.dictionary.defaulted .empty chunks]

theorem TransformationKind.ignoresOrder : IgnoresOrder TransformationKind.ofJson? :=
  IgnoresOrder.name.bind _

theorem TransformationReason.ignoresOrder : IgnoresOrder TransformationReason.ofJson? :=
  IgnoresOrder.name.bind _

theorem Transformation.ignoresOrder : IgnoresOrder Transformation.ofJson? := by
  apply IgnoresOrder.record ["type", "reason", "offset", "id"]
  intro fields others count related
  match fields, others, related, count with
  | [_, _, _, _], _, .cons kind (.cons reason (.cons offset (.cons id .nil))), _ =>
      cases kind with
      | none => rfl
      | some kind =>
          cases reason with
          | none => rfl
          | some reason =>
              cases offset with
              | none => rfl
              | some offset =>
                  simp only [TransformationKind.ignoresOrder kind,
                    TransformationReason.ignoresOrder reason, IgnoresOrder.natural offset,
                    IgnoresOrder.text.optional id]

theorem RecordedValues.ignoresOrder : IgnoresOrder RecordedValues.ofJson? := by
  have bytes : IgnoresOrder RecordedValues.bytesOfJson? := IgnoresOrder.text.bind _
  apply IgnoresOrder.record
    ["cborAuxdata", "constructorArguments", "libraries", "immutables", "callProtection"]
  intro fields others count related
  match fields, others, related, count with
  | [_, _, _, _, _], _,
    .cons chunks
    (.cons arguments (.cons libraries (.cons immutables (.cons protection .nil)))), _ =>
      simp only [RecordedValues.groupOfJson?, bytes.dictionary.defaulted .empty chunks,
        bytes.optional arguments, bytes.dictionary.defaulted .empty libraries,
        bytes.dictionary.defaulted .empty immutables, bytes.optional protection]

theorem MatchResult.ignoresOrder : IgnoresOrder MatchResult.ofJson? := by
  have matchStatus : IgnoresOrder MatchStatus.ofJson? := IgnoresOrder.name.bind _
  have matchMode : IgnoresOrder MatchMode.ofJson? := IgnoresOrder.name.bind _
  apply IgnoresOrder.record
    ["match", "transformations", "transformationValues", "libraryMap", "message", "mode"]
  intro fields others count related
  match fields, others, related, count with
  | [_, _, _, _, _, _], _,
    .cons status
    (.cons log (.cons values (.cons libraryMap (.cons message (.cons mode .nil))))), _ =>
      cases status with
      | none => rfl
      | some status =>
          cases log with
          | none => rfl
          | some log =>
              cases values with
              | none => rfl
              | some values =>
                  cases mode with
                  | none => rfl
                  | some mode =>
                      simp only [matchStatus status, Transformation.ignoresOrder.list log,
                        RecordedValues.ignoresOrder values,
                        IgnoresOrder.text.dictionary.optional libraryMap,
                        IgnoresOrder.text.optional message, matchMode mode]

/-! ## Round trips -/

/-- A result and artifacts are read as they were written, also from a document that a
store has given back with the members of its objects in other places. -/
theorem documents_round_trip (result : MatchResult) (artifacts : CodeArtifacts) :
    (MatchResult.ofJson? result.toJson = some result ∧
        CodeArtifacts.ofJson? artifacts.toJson = some artifacts) ∧
      (∀ stored, Json.Reordered result.toJson stored →
        MatchResult.ofJson? stored = some result) ∧
      ∀ stored, Json.Reordered artifacts.toJson stored →
        CodeArtifacts.ofJson? stored = some artifacts := by
  have resultRead := MatchResult.ofJson?_toJson result
  have artifactsRead := CodeArtifacts.ofJson?_toJson artifacts
  refine ⟨⟨resultRead, artifactsRead⟩, ?_, ?_⟩
  · intro stored reordered
    exact (MatchResult.ignoresOrder reordered).symm.trans resultRead
  · intro stored reordered
    exact (CodeArtifacts.ignoresOrder reordered).symm.trans artifactsRead

/-! Documents that come back with their members from last to first, in the log as well. -/

def keptResult : MatchResult where
  status := .equivalent
  transformations := [.library 2 "a.sol:L"]
  values :=
    { libraries := Dictionary.empty.insert "a.sol:L" [7], callProtection := some [] }
  libraryMap := some (Dictionary.empty.insert "a.sol:L" "0x07")
  message := none
  mode := .artifacts

def entryMembers : List (String × Json) :=
  [("type", .text "replace"), ("reason", .text "library"), ("offset", .ofNatural 2),
    ("id", .text "a.sol:L")]

def resultMembers (entry : List (String × Json)) : List (String × Json) :=
  [("match", .text "match"),
    ("transformations", .array [.object entry]),
    ("transformationValues", .object [
      ("libraries", .object [("a.sol:L", .text "0x07")]),
      ("callProtection", .text "0x")]),
    ("libraryMap", .object [("a.sol:L", .text "0x07")]),
    ("mode", .text "artifacts")]

theorem toJson_keptResult : keptResult.toJson = .object (resultMembers entryMembers) := by
  rfl

theorem reordered_keptResult :
    Json.Reordered keptResult.toJson
      (.object (resultMembers entryMembers.reverse).reverse) := by
  rw [toJson_keptResult]
  have entry : Json.Reordered (.object entryMembers) (.object entryMembers.reverse) :=
    .members (by decide) (List.reverse_perm _).symm
  have log : Json.Reordered (.object (resultMembers entryMembers))
      (.object (resultMembers entryMembers.reverse)) :=
    .member [_] [_, _, _] "transformations" (.item [] [] entry)
  exact log.trans (.members (by decide) (List.reverse_perm _).symm)

def keptArtifacts : CodeArtifacts where
  metadataChunks := Dictionary.empty.insert "1" ⟨[0xa0], 3⟩

def artifactsMembers : List (String × Json) :=
  [("linkReferences", .object []), ("immutableReferences", .object []),
    ("cborAuxdata",
      .object [("1", .object [("value", .text "0xa0"), ("offset", .ofNatural 3)])])]

theorem documents_round_trip_reversed :
    Json.Reordered keptResult.toJson
      (.object (resultMembers entryMembers.reverse).reverse) ∧
      Json.Reordered keptArtifacts.toJson (.object artifactsMembers.reverse) ∧
      MatchResult.ofJson? (.object (resultMembers entryMembers.reverse).reverse) =
        some keptResult ∧
      CodeArtifacts.ofJson? (.object artifactsMembers.reverse) = some keptArtifacts := by
  have written : keptArtifacts.toJson = .object artifactsMembers := rfl
  have reordered :
      Json.Reordered keptArtifacts.toJson (.object artifactsMembers.reverse) :=
    written ▸ .members (by decide) (List.reverse_perm _).symm
  rcases documents_round_trip keptResult keptArtifacts with ⟨_, result, artifacts⟩
  exact ⟨reordered_keptResult, reordered, result _ reordered_keptResult,
    artifacts _ reordered⟩

end ContractCode
