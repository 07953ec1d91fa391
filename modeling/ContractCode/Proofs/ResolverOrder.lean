import ContractCode.Proofs.Actions
import Mathlib.Data.List.Perm.Basic

/-! # The order of the resolvers

Call protection, immutables and libraries can be resolved in any order if their
references are independent: no reference reaches into the first bytes of the code or
into a reference of the other kind, and the code has all places of libraries from the
start. References of one kind may overlap, since a resolver goes through them in an
order of its own.

No resolver fills what another one sees, so each of them does on the result of the
others what it would have done at first. In any order the code gets the fillings of all
of them one after the other, and each filling brings what is on chain, whichever comes
first.
-/

namespace ContractCode.Resolution

variable {resolution : Resolution}

/-! ## What the resolvers do -/

/-- No reference reaches into the first bytes of the code or into a reference of the
other kind, and the code has the places of all libraries. -/
structure Independent (resolution : Resolution) (code : Bytes) : Prop where
  immutables : ∀ span ∈ Immutable.spans resolution.immutables,
    Matching.protectionSpan.Disjoint span
  libraries : ∀ span ∈ Library.spans resolution.libraries,
      Matching.protectionSpan.Disjoint span
  kinds : ∀ immutable ∈ Immutable.spans resolution.immutables,
    ∀ library ∈ Library.spans resolution.libraries, immutable.Disjoint library
  within : ∀ span ∈ Library.spans resolution.libraries, span.Within code.length

theorem area_of_mem_actions {action : Action} {resolver : Resolver}
    (member : action ∈ resolution.actions resolver) :
    action.resolver = resolver ∧
      match resolver with
      | .callProtection => action.area = Matching.protectionSpan
      | .immutables => action.area ∈ Immutable.spans resolution.immutables
      | .libraries => action.area ∈ Library.spans resolution.libraries := by
  cases resolver with
  | callProtection =>
      cases List.mem_singleton.mp member
      exact ⟨rfl, rfl⟩
  | immutables =>
      rcases List.mem_map.mp member with ⟨target, listed, rfl⟩
      exact ⟨rfl, List.mem_map_of_mem (List.mem_mergeSort.mp listed)⟩
  | libraries =>
      rcases List.mem_map.mp member with ⟨target, listed, rfl⟩
      exact ⟨rfl, List.mem_map_of_mem listed⟩

theorem Independent.apart {code : Bytes} (independent : resolution.Independent code)
    {first second : Resolver} (different : first ≠ second) {action other : Action}
    (member : action ∈ resolution.actions first)
    (otherMember : other ∈ resolution.actions second) :
    action.Apart other := by
  rcases area_of_mem_actions member with ⟨rfl, area⟩
  rcases area_of_mem_actions otherMember with ⟨rfl, otherArea⟩
  refine ⟨different, ?_⟩
  cases action with
  | callProtection =>
      cases other with
      | callProtection => exact absurd rfl different
      | immutable target => exact independent.immutables _ otherArea
      | library target => exact independent.libraries _ otherArea
  | immutable target =>
      cases other with
      | callProtection => exact (independent.immutables _ area).symm
      | immutable target => exact absurd rfl different
      | library target => exact independent.kinds _ area _ otherArea
  | library target =>
      cases other with
      | callProtection => exact (independent.libraries _ area).symm
      | immutable target => exact (independent.kinds _ otherArea _ area).symm
      | library target => exact absurd rfl different

theorem Independent.seesSame_self {code : Bytes}
    (independent : resolution.Independent code)
    {resolver : Resolver} {action : Action}
    (member : action ∈ resolution.actions resolver) :
    action.SeesSame code code := by
  apply Action.SeesSame.refl
  rintro target rfl
  rcases area_of_mem_actions member with ⟨rfl, area⟩
  exact independent.within _ area

/-- What the resolver would fill if it were the first one. -/
def fillingsOf (resolution : Resolution) (initial : PopulatedCode) (resolver : Resolver) :
    Except MatchError (List Filling) :=
  resolution.fillings (resolution.actions resolver) initial

/-- From the current state the resolvers make the fillings that each of them would make
at first. -/
inductive Resolved (resolution : Resolution) (initial current : PopulatedCode)
    (order : List Resolver) :
    Except MatchError PopulatedCode → Prop
  | failed {failure : MatchError}
      (failed : order.mapM (resolution.fillingsOf initial) = .error failure) :
      Resolved resolution initial current order (.error failure)
  | filled {lists : List (List Filling)}
      (ran : order.mapM (resolution.fillingsOf initial) = .ok lists)
      (found : Found resolution.onChain (order.flatMap resolution.actions)
        current lists.flatten) :
      Resolved resolution initial current order
      (.ok (current.fillAll resolution.onChain lists.flatten))

/-- What another resolver has filled is not seen. -/
theorem Independent.seesSame_fillAll {initial current : PopulatedCode}
    {list : List Filling}
    {resolver other : Resolver} {action : Action}
    (independent : resolution.Independent initial.code)
    (different : other ≠ resolver) (member : action ∈ resolution.actions other)
    (same : action.SeesSame initial.code current.code)
    (found : Found resolution.onChain (resolution.actions resolver) current list) :
    action.SeesSame initial.code (current.fillAll resolution.onChain list).code := by
  apply same.trans (found.seesSame _ same.right)
  exact fun filler fillerMember => independent.apart different member fillerMember

theorem Resolved.cons {initial current : PopulatedCode} {list : List Filling}
    {resolver : Resolver}
    {order : List Resolver} {outcome : Except MatchError PopulatedCode}
    (first : resolution.fillingsOf initial resolver = .ok list)
    (found : Found resolution.onChain (resolution.actions resolver) current list)
    (rest : Resolved resolution initial (current.fillAll resolution.onChain list)
      order outcome) :
    Resolved resolution initial current (resolver :: order) outcome := by
  cases rest with
  | failed failed =>
      apply Resolved.failed
      rw [List.mapM_cons, first, failed]
      rfl
  | @filled lists ran later =>
      have whole : current.fillAll resolution.onChain (list :: lists).flatten =
          (current.fillAll resolution.onChain list).fillAll resolution.onChain
            lists.flatten :=
        List.foldl_append
      rw [← whole]
      apply Resolved.filled (Run.mapM_cons_eq_ok_iff.mpr ⟨list, lists, first, ran, rfl⟩)
      rw [List.flatMap_cons, List.flatten_cons]
      exact (found.mono fun _ member => List.mem_append_left _ member).append
        (later.mono fun _ member => List.mem_append_right _ member)

/-- As long as the actions of the resolvers see the code as it was, so does the next
resolver. -/
theorem resolved_of_seesSame {order : List Resolver} {initial current : PopulatedCode}
    (independent : resolution.Independent initial.code) (once : order.Nodup)
    (seen : ∀ resolver ∈ order, ∀ action ∈ resolution.actions resolver,
      action.SeesSame initial.code current.code) :
    Resolved resolution initial current order (resolution.resolve order current) := by
  induction order generalizing current with
  | nil =>
      have ran : ([] : List Resolver).mapM (resolution.fillingsOf initial) = .ok [] := rfl
      exact .filled ran (.done current)
  | cons resolver order induction =>
      rcases List.nodup_cons.mp once with ⟨new, onceLater⟩
      rcases List.forall_mem_cons.mp seen with ⟨seenHere, seenLater⟩
      have first : resolution.fillingsOf initial resolver =
          resolution.fillings (resolution.actions resolver) current :=
        fillings_congr seenHere
      rw [resolve, List.foldlM_cons, run_eq_fillings, ← first]
      cases filled : resolution.fillingsOf initial resolver with
      | error failure =>
          apply Resolved.failed
          rw [List.mapM_cons, filled]
          rfl
      | ok list =>
          have found := found_of_fillings (first.symm.trans filled)
          apply Resolved.cons filled found
          apply induction onceLater
          intro other member action listed
          have different : other ≠ resolver := fun equal => new (equal ▸ member)
          exact independent.seesSame_fillAll different listed
            (seenLater other member action listed) found

/-! ## Any order -/

/-- The values after the fillings. -/
def recordAll (onChain : Bytes) (list : List Filling) (values : RecordedValues) :
    RecordedValues :=
  list.foldl (fun values filling =>
    filling.record (onChain.slice filling.span) values) values

theorem fillAll_values (onChain : Bytes) (list : List Filling)
    (populated : PopulatedCode) :
    (populated.fillAll onChain list).values =
      recordAll onChain list populated.values := by
  induction list generalizing populated with
  | nil => rfl
  | cons filling list induction => exact induction (populated.fill onChain filling)

/-- Every resolver has a group of values of its own. -/
theorem record_comm {first second : Filling}
    (different : first.resolver ≠ second.resolver)
    (value other : Bytes) (values : RecordedValues) :
    first.record value (second.record other values) =
      second.record other (first.record value values) := by
  rcases first with ⟨_, cause⟩
  rcases second with ⟨_, otherCause⟩
  cases cause <;> cases otherCause <;> first | rfl | exact absurd rfl different

theorem record_recordAll {onChain : Bytes} {filling : Filling} {list : List Filling}
    (different : ∀ other ∈ list, filling.resolver ≠ other.resolver) (value : Bytes)
    (values : RecordedValues) :
    recordAll onChain list (filling.record value values) =
      filling.record value (recordAll onChain list values) := by
  induction list generalizing values with
  | nil => rfl
  | cons other list induction =>
      rcases List.forall_mem_cons.mp different with ⟨here, later⟩
      rw [recordAll, List.foldl_cons, ← record_comm here]
      exact induction later _

theorem recordAll_comm {onChain : Bytes} {first second : List Filling}
    (different : ∀ filling ∈ first, ∀ other ∈ second, filling.resolver ≠ other.resolver)
    (values : RecordedValues) :
    recordAll onChain second (recordAll onChain first values) =
      recordAll onChain first (recordAll onChain second values) := by
  induction first generalizing values with
  | nil => rfl
  | cons filling first induction =>
      rcases List.forall_mem_cons.mp different with ⟨here, later⟩
      refine (induction later _).trans ?_
      rw [record_recordAll here]
      rfl

/-- Lists of fillings of different resolvers record the same in any order. -/
theorem recordAll_flatten_perm {order : List Resolver} {initial : PopulatedCode}
    {lists reordered : List (List Filling)}
    (ran : order.mapM (resolution.fillingsOf initial) = .ok lists)
    (same : lists.Perm reordered)
    (values : RecordedValues) :
    recordAll resolution.onChain lists.flatten values =
      recordAll resolution.onChain reordered.flatten values := by
  have parts : ∀ lists : List (List Filling),
      recordAll resolution.onChain lists.flatten values =
      lists.foldl (fun values list => recordAll resolution.onChain list values) values :=
    fun lists => List.foldl_flatten
  rw [parts, parts]
  apply same.foldl_eq'
  intro left leftMember right rightMember values
  rcases Run.mem_of_mapM ran left leftMember with ⟨first, _, leftFound⟩
  rcases Run.mem_of_mapM ran right rightMember with ⟨second, _, rightFound⟩
  rcases eq_or_ne first second with rfl | different
  · cases leftFound.symm.trans rightFound
    rfl
  · apply recordAll_comm
    intro filling member other otherMember
    rcases (found_of_fillings leftFound).resolver filling member with
      ⟨action, listed, resolver⟩
    rcases (found_of_fillings rightFound).resolver other otherMember
      with ⟨otherAction, otherListed, otherResolver⟩
    rw [resolver, otherResolver, (area_of_mem_actions listed).1,
      (area_of_mem_actions otherListed).1]
    exact different

/-- Resolvers with independent references lead to the same code and to the same values
in any order, and to the same log but for its order, unless some of them fails in every
order. -/
theorem resolve_in_any_order {first second : List Resolver} {populated : PopulatedCode}
    (independent : resolution.Independent populated.code) (once : first.Nodup)
    (same : first.Perm second) :
    (∃ failure other, resolution.resolve first populated = .error failure ∧
      resolution.resolve second populated = .error other) ∨
    ∃ left right, resolution.resolve first populated = .ok left ∧
      resolution.resolve second populated = .ok right ∧ left.code = right.code ∧
      left.values = right.values ∧ left.transformations.Perm right.transformations := by
  have seen : ∀ resolver, ∀ action ∈ resolution.actions resolver,
      action.SeesSame populated.code populated.code :=
    fun resolver action member => independent.seesSame_self member
  have left := resolved_of_seesSame independent once fun resolver _ => seen resolver
  have right :=
    resolved_of_seesSame independent (same.nodup_iff.mp once) fun resolver _ =>
      seen resolver
  generalize resolution.resolve first populated = leftOutcome at left ⊢
  generalize resolution.resolve second populated = rightOutcome at right ⊢
  cases left with
  | failed failed =>
      cases right with
      | failed otherFailed => exact .inl ⟨_, _, rfl, rfl⟩
      | filled ran found =>
          rcases Run.mapM_perm same.symm ran with ⟨_, ran, _⟩
          rw [failed] at ran
          cases ran
  | @filled lists ran found =>
      rcases Run.mapM_perm same ran with ⟨reordered, reran, perm⟩
      cases right with
      | failed failed =>
          rw [failed] at reran
          cases reran
      | filled otherRan otherFound =>
          cases reran.symm.trans otherRan
          refine .inr ⟨_, _, rfl, rfl, ?_, ?_, ?_⟩
          · apply List.ext_getElem?
            intro index
            rw [found.getElem?, otherFound.getElem?]
            simp only [perm.flatten.mem_iff]
          · rw [fillAll_values, fillAll_values]
            exact recordAll_flatten_perm ran perm _
          · rw [PopulatedCode.fillAll_transformations,
              PopulatedCode.fillAll_transformations]
            exact (perm.flatten.map _).append_left _

/-- Runtime code is filled in one of the orders. -/
theorem populateRuntime_eq_resolve (style : Auxdata.Style) (onChain : Bytes)
    (compiled : CompiledCode)
    (artifacts : CodeArtifacts) :
    Matching.populateRuntime style onChain compiled artifacts =
      resolve ⟨style, compiled.placeholders, onChain, artifacts.immutableReferences,
        artifacts.linkReferences⟩ [.callProtection, .immutables,
        .libraries] (.ofCode compiled.code) := by
  simp only [resolve, List.foldlM_cons, List.foldlM_nil, bind_pure]
  rfl

/-- Code that awaits its own address, that of a library and an immutable behind it. -/
def threefold : Resolution where
  style := .vyper
  placeholders := []
  onChain := 0x73 :: List.replicate 20 1 ++ 0x30 :: List.replicate 20 2 ++ [3, 3]
  immutables := Dictionary.empty.insert "0" [⟨42, 2⟩]
  libraries := Dictionary.empty.insert "a.sol" (Dictionary.empty.insert "L" [⟨22, 20⟩])

def threefoldCode : PopulatedCode :=
  .ofCode (0x73 :: List.replicate 20 0 ++ 0x30 :: List.replicate 20 0)

theorem independent_threefold : threefold.Independent threefoldCode.code where
  immutables := by decide +kernel
  libraries := by decide +kernel
  kinds := by decide +kernel
  within := by decide +kernel

theorem resolve_threefold_backwards :
    threefold.Independent threefoldCode.code ∧
    ∃ left right,
      threefold.resolve [.callProtection, .immutables,
        .libraries] threefoldCode = .ok left ∧
      threefold.resolve [.libraries, .immutables,
        .callProtection] threefoldCode = .ok right ∧
      left.code = right.code ∧ left.values = right.values ∧
      left.transformations.Perm right.transformations := by
  have once : [Resolver.callProtection, .immutables, .libraries].Nodup := by decide
  have backwards : [Resolver.callProtection, .immutables, .libraries].Perm
      [.libraries, .immutables, .callProtection] := by decide
  have resolves : (threefold.resolve [.callProtection, .immutables, .libraries]
      threefoldCode).isOk = true := by decide +kernel
  rcases resolve_in_any_order independent_threefold once backwards
    with ⟨failure, _, failed, _⟩ | succeeded
  · rw [failed] at resolves
    cases resolves
  · exact ⟨independent_threefold, succeeded⟩

end ContractCode.Resolution
