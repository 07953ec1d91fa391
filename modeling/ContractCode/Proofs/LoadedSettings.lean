import ContractCode.Configuration
import ContractCode.Proofs.PathValues
import ContractCode.Proofs.StyleSelection

/-! # Settings that are loaded

Variables are put into what the file has, one after the other, so the last variable for a
path decides what is there, and a variable that no setting has prevents loading. Settings
that are loaded have their thresholds in order, and a file that they are written to gives
them back.
-/

namespace ContractCode

/-! ## Reading thresholds -/

namespace VyperThresholds

variable {thresholds : VyperThresholds} {fields : List (String × Json)} {name : String}

/-- The version in the field of the given name. -/
def field? (thresholds : VyperThresholds) : (name : String) → Option Version
  | "length_suffix_since" => some thresholds.lengthSuffixSince
  | "self_inclusive_length_since" => some thresholds.selfInclusiveLengthSince
  | _ => none

/-- Each field has the version that its member tells, or its default without a member. -/
theorem field?_of_ofJson? (read : ofJson? (.object fields) = some thresholds)
    (field : name ∈ fieldNames) :
    thresholds.field? name =
      (fields.lookup name).elim (({} : VyperThresholds).field? name) versionOfJson? := by
  simp only [ofJson?, Json.knownFields?] at read
  split at read
  · simp only [fieldNames, List.map_cons, List.map_nil, Option.bind_eq_bind,
      Option.bind_some, Option.bind_eq_some_iff, Option.pure_def,
      Option.some.injEq] at read
    rcases read with ⟨suffix, ofSuffix, selfInclusive, ofSelfInclusive, rfl⟩
    simp only [fieldNames, List.mem_cons, List.not_mem_nil, or_false] at field
    rcases field with rfl | rfl
    · rw [field?, ← ofSuffix]
      cases fields.lookup "length_suffix_since" <;> rfl
    · rw [field?, ← ofSelfInclusive]
      cases fields.lookup "self_inclusive_length_since" <;> rfl
  · cases read

/-- The versions of thresholds have texts that they are read from. -/
def AreRead (thresholds : VyperThresholds) : Prop :=
  (∃ text, Version.parse? text = some thresholds.lengthSuffixSince) ∧
    ∃ text, Version.parse? text = some thresholds.selfInclusiveLengthSince

theorem areRead_default : AreRead {} := by
  refine ⟨⟨"0.3.5", ?_⟩, ⟨"0.3.10", ?_⟩⟩ <;> decide +kernel

theorem exists_text_of_defaulted? {default version : Version} {json : Option Json}
    (ofText : ∃ text, Version.parse? text = some default)
    (read : Json.defaulted? default versionOfJson? json = some version) :
    ∃ text, Version.parse? text = some version := by
  cases json with
  | none =>
      cases read
      exact ofText
  | some json =>
      rcases Option.bind_eq_some_iff.mp read with ⟨text, _, parsed⟩
      exact ⟨text, parsed⟩

theorem areRead_of_ofJson? {json : Json} (read : ofJson? json = some thresholds) :
    AreRead thresholds := by
  simp only [ofJson?, Option.bind_eq_bind, Option.bind_eq_some_iff] at read
  rcases read with ⟨members, _, read⟩
  split at read
  · simp only [Option.bind_eq_some_iff, Option.pure_def, Option.some.injEq] at read
    rcases read with ⟨suffix, ofSuffix, selfInclusive, ofSelfInclusive, rfl⟩
    exact ⟨exists_text_of_defaulted? areRead_default.1 ofSuffix,
      exists_text_of_defaulted? areRead_default.2 ofSelfInclusive⟩
  · cases read

/-- Thresholds that were read are read again from what they are written as. -/
theorem ofJson?_toJson (areRead : thresholds.AreRead) :
    ofJson? thresholds.toJson = some thresholds := by
  rcases areRead with ⟨⟨suffix, ofSuffix⟩, ⟨selfInclusive, ofSelfInclusive⟩⟩
  rw [← Version.render_of_parse? ofSuffix] at ofSuffix
  rw [← Version.render_of_parse? ofSelfInclusive] at ofSelfInclusive
  simp [ofJson?, toJson, Json.knownFields?, fieldNames, List.lookup_cons, versionOfJson?,
    Json.defaulted?, ofSuffix, ofSelfInclusive]

end VyperThresholds

namespace Configuration

variable {environment before after : List (String × String)} {file : Option Json}
  {whole : Json} {settings : Settings} {name text : String} {path : List Step}

/-! ## Variables -/

/-- The variable belongs to the program. -/
def isOwn (entry : String × String) : Bool := (pathOfVariable? entry.1).isSome

theorem withVariables_append (before after : List (String × String)) (whole : Json) :
    withVariables (before ++ after) whole =
      withVariables after (withVariables before whole) :=
  List.foldl_append

theorem withVariables_cons_of_own (own : pathOfVariable? name = some path)
    (after : List (String × String)) (whole : Json) :
    withVariables ((name, text) :: after) whole =
      withVariables after (assign (.text text) path whole) := by
  simp only [withVariables, List.foldl_cons, own]

theorem withVariables_cons_of_foreign (foreign : pathOfVariable? name = none)
    (after : List (String × String)) (whole : Json) :
    withVariables ((name, text) :: after) whole = withVariables after whole := by
  simp only [withVariables, List.foldl_cons, foreign]

/-- Variables of other programs change nothing. -/
theorem withVariables_filter_isOwn (environment : List (String × String)) (whole : Json) :
    withVariables (environment.filter isOwn) whole = withVariables environment whole := by
  induction environment generalizing whole with
  | nil => rfl
  | cons entry environment induction =>
      cases own : pathOfVariable? entry.1 with
      | none =>
          rw [List.filter_cons_of_neg (by simp [isOwn, own]), induction,
            withVariables_cons_of_foreign own]
      | some path =>
          rw [List.filter_cons_of_pos (by simp [isOwn, own]),
            withVariables_cons_of_own own, withVariables_cons_of_own own, induction]

/-- Variables whose paths part from a path leave the value there. -/
theorem valueAt?_withVariables_of_apart
    (apart : ∀ entry ∈ environment, ∀ other, pathOfVariable? entry.1 = some other →
      Apart other path) (whole : Json) :
    valueAt? path (withVariables environment whole) = valueAt? path whole := by
  induction environment generalizing whole with
  | nil => rfl
  | cons entry environment induction =>
      rw [List.forall_mem_cons] at apart
      cases own : pathOfVariable? entry.1 with
      | none => rw [withVariables_cons_of_foreign own, induction apart.2]
      | some other =>
          rw [withVariables_cons_of_own own, induction apart.2,
            valueAt?_assign_of_apart (apart.1 other own)]

/-- The last variable for a path decides what is there, whatever the file has. -/
theorem valueAt?_withVariables (own : pathOfVariable? name = some path)
    (leads : Leads path (withVariables before whole))
    (last : ∀ entry ∈ after, ∀ other, pathOfVariable? entry.1 = some other →
      Apart other path) :
    valueAt? path (withVariables (before ++ (name, text) :: after) whole) =
      some (.text text) := by
  rw [withVariables_append, withVariables_cons_of_own own,
    valueAt?_withVariables_of_apart last]
  exact valueAt?_assign leads

/-! ## Reading settings -/

theorem lookup_map (change : Json → Json) (members : List (String × Json))
    (name : String) :
    (members.map fun member => (member.1, change member.2)).lookup name =
      (members.lookup name).map change := by
  induction members with
  | nil => rfl
  | cons member members induction =>
      rcases member with ⟨key, content⟩
      rw [List.map_cons, List.lookup_cons, List.lookup_cons, induction]
      cases name == key <;> rfl

/-- Settings have the thresholds and nothing else. -/
theorem settingsOf?_eq_some_iff :
    settingsOf? whole = some settings ↔
      (∀ member ∈ membersOf whole, member.1 = "vyper_auxdata") ∧
        Json.defaulted? {} VyperThresholds.ofJson?
          (((membersOf whole).lookup "vyper_auxdata").map
            (withoutSurplus VyperThresholds.fieldNames.length)) =
          some settings.vyperAuxdata := by
  have known : ((membersOf whole).map fun member =>
      (member.1, withoutSurplus VyperThresholds.fieldNames.length member.2)).all
        (fun member => ["vyper_auxdata"].contains member.1) = true ↔
      ∀ member ∈ membersOf whole, member.1 = "vyper_auxdata" := by
    simp
  rw [settingsOf?, Settings.ofJson?]
  simp only [Json.knownFields?, List.map_cons, List.map_nil, lookup_map]
  split
  · rename_i isKnown
    simp only [Option.bind_eq_bind, Option.bind_some, Option.bind_eq_some_iff,
      Option.pure_def, Option.some.injEq]
    constructor
    · intro ⟨thresholds, ofThresholds, same⟩
      rw [← same]
      exact ⟨known.mp isKnown, ofThresholds⟩
    · intro ⟨_, ofThresholds⟩
      exact ⟨settings.vyperAuxdata, ofThresholds, rfl⟩
  · rename_i unknown
    constructor
    · intro read
      cases read
    · intro ⟨isKnown, _⟩
      exact absurd (known.mpr isKnown) unknown

/-- Where the settings have an object, it is read for the thresholds. -/
theorem ofJson?_of_settingsOf? {fields : List (String × Json)}
    (read : settingsOf? whole = some settings)
    (found : valueAt? [.key "vyper_auxdata"] whole = some (.object fields)) :
    VyperThresholds.ofJson? (.object fields) = some settings.vyperAuxdata := by
  rcases Option.bind_eq_some_iff.mp found with ⟨json, member, same⟩
  have thresholds := (settingsOf?_eq_some_iff.mp read).2
  rw [member, Option.some.inj same] at thresholds
  exact thresholds

/-- A text in the place of a threshold is read as its version. -/
theorem field?_of_settingsOf? (read : settingsOf? whole = some settings)
    (field : name ∈ VyperThresholds.fieldNames)
    (found : valueAt? [.key "vyper_auxdata", .key name] whole = some (.text text)) :
    settings.vyperAuxdata.field? name = Version.parse? text := by
  rcases Option.bind_eq_some_iff.mp found with ⟨json, thresholds, member⟩
  rcases Option.bind_eq_some_iff.mp member with ⟨value, member, same⟩
  cases same
  cases json with
  | object fields =>
      have inside : valueAt? [.key "vyper_auxdata"] whole = some (.object fields) := by
        rw [valueAt?, thresholds]
        rfl
      have lookup : fields.lookup name = some (.text text) := member
      have read := ofJson?_of_settingsOf? read inside
      rw [VyperThresholds.field?_of_ofJson? read field, lookup]
      rfl
  | null | bool | integer | decimal | text | array => cases member

/-! ## Loading -/

/-- How loading may end. -/
inductive Loading (environment : List (String × String)) (file : Option Json) :
    Except LoadError Settings → Prop
  | missing (missing : FileMissing environment file) :
      Loading environment file (.error .unreadable)
  | unreadable (present : ¬ FileMissing environment file)
      (read : settingsOf? (withVariables environment (ofFile file)) = none) :
      Loading environment file (.error .unreadable)
  | inconsistent {thresholds : VyperThresholds} (present : ¬ FileMissing environment file)
      (read : settingsOf? (withVariables environment (ofFile file)) = some ⟨thresholds⟩)
      (inverted : thresholds.selfInclusiveLengthSince < thresholds.lengthSuffixSince) :
      Loading environment file (.error (.inconsistentVersions thresholds.lengthSuffixSince
        thresholds.selfInclusiveLengthSince))
  | loaded {settings : Settings} (present : ¬ FileMissing environment file)
      (read : settingsOf? (withVariables environment (ofFile file)) = some settings)
      (ordered : settings.vyperAuxdata.Ordered) : Loading environment file (.ok settings)

theorem loading_load (environment : List (String × String)) (file : Option Json) :
    Loading environment file (load environment file) := by
  rw [load]
  split
  · rename_i missing
    exact .missing missing
  · rename_i present
    split
    · rename_i read
      exact .unreadable present read
    · rename_i settings read
      dsimp only
      split
      · rename_i ordered
        exact .loaded present read ordered
      · rename_i unordered
        exact .inconsistent present read (Decidable.not_not.mp unordered)

theorem load_eq_ok_iff :
    load environment file = .ok settings ↔
      ¬ FileMissing environment file ∧
        settingsOf? (withVariables environment (ofFile file)) = some settings ∧
        settings.vyperAuxdata.Ordered := by
  constructor
  · intro ends
    have loading := loading_load environment file
    rw [ends] at loading
    cases loading with
    | loaded present read ordered => exact ⟨present, read, ordered⟩
  · intro loads
    simp only [load, if_neg loads.1, loads.2.1, if_pos loads.2.2]

/-- Only thresholds that are out of order end in an error that tells versions. -/
theorem load_eq_inconsistentVersions_iff {lengthSuffix selfInclusive : Version} :
    load environment file = .error (.inconsistentVersions lengthSuffix selfInclusive) ↔
      ¬ FileMissing environment file ∧
        settingsOf? (withVariables environment (ofFile file)) =
          some ⟨⟨lengthSuffix, selfInclusive⟩⟩ ∧ selfInclusive < lengthSuffix := by
  constructor
  · intro ends
    have loading := loading_load environment file
    rw [ends] at loading
    cases loading with
    | inconsistent present read inverted => exact ⟨present, read, inverted⟩
  · intro inverted
    have unordered : ¬ VyperThresholds.Ordered ⟨lengthSuffix, selfInclusive⟩ :=
      Decidable.not_not.mpr inverted.2.2
    simp only [load, if_neg inverted.1, inverted.2.1, if_neg unordered]

/-- The thresholds of settings that are loaded are in order. -/
theorem ordered_of_load (loaded : load environment file = .ok settings) :
    settings.vyperAuxdata.Ordered :=
  (load_eq_ok_iff.mp loaded).2.2

/-- Since the thresholds are in order, the second one alone decides which compilers have
the newest style. -/
theorem forCompiler_eq_vyper_iff_of_load {version : Version}
    (loaded : load environment file = .ok settings)
    (named : Auxdata.Style.namedVersion? text = some version) :
    Auxdata.Style.forCompiler .vyper text settings.vyperAuxdata = .vyper ↔
      settings.vyperAuxdata.selfInclusiveLengthSince ≤ version.withoutBuild := by
  have ordered : settings.vyperAuxdata.lengthSuffixSince ≤
      settings.vyperAuxdata.selfInclusiveLengthSince :=
    not_lt.mp (ordered_of_load loaded)
  rw [Auxdata.Style.forCompiler_eq_vyper_iff named]
  exact and_iff_right_of_imp (le_trans ordered)

/-- Variables of other programs do not count, unless they ask for a file that is
missing. -/
theorem load_filter_isOwn (present : ¬ FileMissing environment file) :
    load (environment.filter isOwn) file = load environment file := by
  have presentAlone : ¬ FileMissing (environment.filter isOwn) file := by
    intro missing
    rcases List.mem_map.mp missing.2 with ⟨entry, member, named⟩
    exact present ⟨missing.1,
      List.mem_map.mpr ⟨entry, (List.mem_filter.mp member).1, named⟩⟩
  rw [load, load, if_neg present, if_neg presentAlone, withVariables_filter_isOwn]

/-- Without a file and without variables of the program all settings have their
defaults. -/
theorem load_of_foreign (foreign : ∀ entry ∈ environment, pathOfVariable? entry.1 = none)
    (unnamed : fileVariable ∉ environment.map Prod.fst) :
    load environment none = .ok {} := by
  have present : ¬ FileMissing environment none := fun missing => unnamed missing.2
  have none : environment.filter isOwn = [] := by
    rw [List.filter_eq_nil_iff]
    intro entry member
    simp [isOwn, foreign entry member]
  rw [← load_filter_isOwn present, none]
  rfl

/-- The last variable for a threshold decides its version, whatever the file has. -/
theorem field?_of_variable (field : name ∈ VyperThresholds.fieldNames)
    {variableName : String}
    (own : pathOfVariable? variableName = some [.key "vyper_auxdata", .key name])
    (last : ∀ entry ∈ after, ∀ other, pathOfVariable? entry.1 = some other →
      Apart other [.key "vyper_auxdata", .key name])
    (loaded : load (before ++ (variableName, text) :: after) file = .ok settings) :
    settings.vyperAuxdata.field? name = Version.parse? text := by
  have read := (load_eq_ok_iff.mp loaded).2.1
  apply field?_of_settingsOf? read field
  apply valueAt?_withVariables own _ last
  apply leads_of_keys
  simp

example : pathOfVariable? "BYTECODE_MATCHER__VYPER_AUXDATA__LENGTH_SUFFIX_SINCE" =
    some [.key "vyper_auxdata", .key "length_suffix_since"] := by decide +kernel

/-! ## Names of variables -/

/-- A path that a name spells starts with a key. -/
theorem exists_key_of_pathOfName (name : List Char) :
    ∃ key rest, pathOfName name = .key key :: rest := by
  rw [pathOfName, takeKey?]
  split
  · exact ⟨String.ofList name, [], rfl⟩
  · simp only [Option.bind_eq_bind, Option.bind_some]
    cases steps? (name.dropWhile isKeyCharacter).length
      (name.dropWhile isKeyCharacter) with
    | none => exact ⟨String.ofList name, [], rfl⟩
    | some steps => exact ⟨String.ofList (name.takeWhile isKeyCharacter), steps, rfl⟩

theorem exists_key_of_pathOfVariable? (own : pathOfVariable? name = some path) :
    ∃ key rest, path = .key key :: rest := by
  rw [pathOfVariable?] at own
  split at own
  · rw [← Option.some.inj own]
    exact exists_key_of_pathOfName _
  · cases own

theorem isSome_valueAt?_assign {key : String} (value : Json)
    (found : (valueAt? [.key name] whole).isSome) :
    (valueAt? [.key name] (assign value (.key key :: path) whole)).isSome := by
  by_cases same : name = key
  · subst same
    simp [assign, valueAt?, membersOf, lookup_withMember_self]
  · rw [valueAt?_assign_of_apart (.here same)]
    exact found

/-- Variables take no member away. -/
theorem isSome_valueAt?_withVariables (environment : List (String × String))
    (found : (valueAt? [.key name] whole).isSome) :
    (valueAt? [.key name] (withVariables environment whole)).isSome := by
  induction environment generalizing whole with
  | nil => exact found
  | cons entry environment induction =>
      cases own : pathOfVariable? entry.1 with
      | none =>
          rw [withVariables_cons_of_foreign own]
          exact induction found
      | some path =>
          rcases exists_key_of_pathOfVariable? own with ⟨key, rest, rfl⟩
          rw [withVariables_cons_of_own own]
          exact induction (isSome_valueAt?_assign _ found)

theorem eq_of_settingsOf? (read : settingsOf? whole = some settings)
    (found : (valueAt? [.key name] whole).isSome) : name = "vyper_auxdata" := by
  rcases Option.isSome_iff_exists.mp found with ⟨json, found⟩
  rcases Option.bind_eq_some_iff.mp found with ⟨value, member, _⟩
  rcases List.lookup_eq_some_iff.mp member with ⟨before, after, joined, _⟩
  apply (settingsOf?_eq_some_iff.mp read).1 (name, value)
  simp [joined]

/-- Every variable of the program is one for the thresholds, or loading fails. -/
theorem known_of_load {entry : String × String}
    (loaded : load environment file = .ok settings)
    (given : entry ∈ environment) (own : pathOfVariable? entry.1 = some path) :
    ∃ rest, path = .key "vyper_auxdata" :: rest := by
  rcases exists_key_of_pathOfVariable? own with ⟨key, rest, rfl⟩
  rcases List.append_of_mem given with ⟨before, after, rfl⟩
  have read := (load_eq_ok_iff.mp loaded).2.1
  have found : (valueAt? [.key key]
      (withVariables (before ++ entry :: after) (ofFile file))).isSome := by
    rw [withVariables_append, withVariables_cons_of_own own]
    apply isSome_valueAt?_withVariables
    simp [assign, valueAt?, membersOf, lookup_withMember_self]
  rw [eq_of_settingsOf? read found]
  exact ⟨rest, rfl⟩

/-! ## Settings that are written -/

theorem areRead_of_settingsOf? (read : settingsOf? whole = some settings) :
    settings.vyperAuxdata.AreRead := by
  have thresholds := (settingsOf?_eq_some_iff.mp read).2
  cases found : (membersOf whole).lookup "vyper_auxdata" with
  | none =>
      rw [found] at thresholds
      rw [← Option.some.inj thresholds]
      exact VyperThresholds.areRead_default
  | some json =>
      rw [found] at thresholds
      exact VyperThresholds.areRead_of_ofJson? thresholds

/-- Settings that are loaded can be written to a file, which gives the same settings. -/
theorem load_toJson (loaded : load environment file = .ok settings) :
    load [] (some settings.toJson) = .ok settings := by
  rcases load_eq_ok_iff.mp loaded with ⟨_, read, ordered⟩
  have written := VyperThresholds.ofJson?_toJson (areRead_of_settingsOf? read)
  have path : pathOfName "vyper_auxdata".toList = [.key "vyper_auxdata"] := by
    decide +kernel
  have whole : withVariables [] (ofFile (some settings.toJson)) = settings.toJson := by
    simp only [withVariables, ofFile, Settings.toJson, Option.getD_some, membersOf,
      List.foldl_cons, List.foldl_nil, path, assign, withMember, List.filter_nil,
      List.nil_append]
  apply load_eq_ok_iff.mpr
  refine ⟨by simp [FileMissing], ?_, ordered⟩
  rw [whole]
  apply settingsOf?_eq_some_iff.mpr
  refine ⟨by simp [Settings.toJson, membersOf], written⟩

end Configuration

end ContractCode
