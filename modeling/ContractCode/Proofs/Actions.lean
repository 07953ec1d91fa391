import ContractCode.Proofs.Effects
import ContractCode.Proofs.FaithfulValues

/-! # Actions

A resolver is a list of actions, one for each of its places, and what it does is a list
of fillings. Which ones they are is known before any resolver has run. Each action sees
its own area of the code and little else, so it does the same wherever it sees the same,
and what actions apart from it fill it does not see.
-/

namespace ContractCode

/-! ## Actions -/

inductive Resolver where
  | callProtection | immutables | libraries
deriving Repr, DecidableEq

def Filling.resolver (filling : Filling) : Resolver :=
  match filling.cause with
  | .callProtection => .callProtection
  | .insertImmutable _ | .replaceImmutable _ => .immutables
  | .library _ => .libraries

/-- What one resolver does at one place. -/
inductive Action where
  | callProtection
  | immutable (target : Immutable.Target)
  | library (target : Library.Target)
deriving DecidableEq

namespace Action

def resolver : Action → Resolver
  | .callProtection => .callProtection
  | .immutable _ => .immutables
  | .library _ => .libraries

/-- The bytes that the action looks at and can change. -/
def area : Action → Span
  | .callProtection => Matching.protectionSpan
  | .immutable target => target.reference.span
  | .library target => target.reference.span

/-- An immutable may start where the code ends, and a library has to lie within the
code. -/
def SeesSameLength (code other : Bytes) : Action → Prop
  | .callProtection => True
  | .immutable _ => code.length = other.length
  | .library target =>
    target.reference.span.Within code.length ∧ target.reference.span.Within other.length

/-- The action sees no difference between the codes. -/
structure SeesSame (code other : Bytes) (action : Action) : Prop where
  bytes : ∀ index, action.area.Covers index → code[index]? = other[index]?
  length : action.SeesSameLength code other

/-- The actions are of different resolvers and share no byte. -/
structure Apart (action other : Action) : Prop where
  resolvers : action.resolver ≠ other.resolver
  areas : action.area.Disjoint other.area

variable {code other third : Bytes} {action : Action}

theorem SeesSame.refl (within : ∀ target, action = .library target →
    target.reference.span.Within code.length) : action.SeesSame code code where
  bytes _ _ := rfl
  length := by
    cases action with
    | callProtection => trivial
    | immutable target => rfl
    | library target => exact ⟨within target rfl, within target rfl⟩

theorem SeesSame.trans (first : action.SeesSame code other)
    (second : action.SeesSame other third) :
    action.SeesSame code third where
  bytes index covers := (first.bytes index covers).trans (second.bytes index covers)
  length := by
    cases action with
    | callProtection => trivial
    | immutable target => exact first.length.trans second.length
    | library target => exact ⟨first.length.1, second.length.2⟩

theorem SeesSame.right (same : action.SeesSame code other) :
    action.SeesSame other other := by
  apply SeesSame.refl
  rintro target rfl
  exact same.length.2

end Action

/-- What the resolvers are given besides the code. -/
structure Resolution where
  style : Auxdata.Style
  placeholders : List Placeholder
  onChain : Bytes
  immutables : ImmutableReferences
  libraries : LinkReferences

namespace Resolution

variable {resolution : Resolution}

def run (resolution : Resolution) (populated : PopulatedCode) :
    Resolver → Except MatchError PopulatedCode
  | .callProtection => .ok (CallProtection.resolve resolution.onChain populated)
  | .immutables =>
    Immutable.resolve resolution.style resolution.onChain resolution.immutables populated
  | .libraries =>
    Library.resolve resolution.placeholders resolution.onChain
      resolution.libraries populated

/-- Runs the resolvers one after the other. -/
def resolve (resolution : Resolution) (order : List Resolver)
    (populated : PopulatedCode) :
    Except MatchError PopulatedCode :=
  order.foldlM resolution.run populated

def actions (resolution : Resolution) : Resolver → List Action
  | .callProtection => [.callProtection]
  | .immutables => (Immutable.orderedTargets resolution.immutables).map .immutable
  | .libraries => (Library.targets resolution.libraries).map .library

def effect (resolution : Resolution) (code : Bytes) : Action → Effect
  | .callProtection => CallProtection.effect resolution.onChain code
  | .immutable target => Immutable.effect resolution.style resolution.onChain code target
  | .library target =>
      Library.effect resolution.placeholders resolution.onChain code target

def act (resolution : Resolution) (populated : PopulatedCode) (action : Action) :
    Except MatchError PopulatedCode :=
  (resolution.effect populated.code action).apply resolution.onChain populated

theorem run_eq_actions (populated : PopulatedCode) (resolver : Resolver) :
    resolution.run populated resolver =
      (resolution.actions resolver).foldlM resolution.act populated := by
  cases resolver with
  | callProtection =>
      rw [run, actions, List.foldlM_cons, act, effect, ← CallProtection.resolve_eq_apply]
      rfl
  | immutables =>
      rw [run, actions, List.foldlM_map, Immutable.resolve]
      congr 1
      funext state target
      exact Immutable.resolveTarget_eq_apply
  | libraries =>
      rw [run, actions, List.foldlM_map, Library.resolve]
      congr 1
      funext state target
      exact Library.resolveTarget_eq_apply

/-! ## What an action does -/

/-- The filling brings something that is on chain, without a gap before it, and stays
within the area. -/
structure FillsWithin (onChain code : Bytes) (action : Action)
    (filling : Filling) : Prop where
  present : filling.span.Within onChain.length
  reaches : filling.span.start ≤ code.length
  area : ∀ index, filling.span.Covers index → action.area.Covers index
  resolver : filling.resolver = action.resolver
  inside : action.resolver ≠ .immutables → filling.span.Within code.length

theorem fillsWithin_of_effect {code : Bytes} {action : Action} {filling : Filling}
    (fills : resolution.effect code action = .fill filling) :
    FillsWithin resolution.onChain code action filling := by
  cases action with
  | callProtection =>
      rcases CallProtection.effect_eq_fill fills with ⟨rfl, present, inside⟩
      exact ⟨present, inside.start_le, fun index covers => ⟨Nat.zero_le _, covers.2⟩, rfl,
        fun _ => inside⟩
  | immutable target =>
      rcases Immutable.effect_eq_fill fills with ⟨rfl | rfl, present, reaches⟩
      · exact ⟨present, reaches,
          fun index covers => covers, rfl, fun other => absurd rfl other⟩
      · exact ⟨present, reaches,
          fun index covers => covers, rfl, fun other => absurd rfl other⟩
  | library target =>
      rcases Library.effect_eq_fill fills with ⟨rfl, present, inside⟩
      exact ⟨present, inside.start_le, fun index covers => covers, rfl, fun _ => inside⟩

theorem effect_congr {code other : Bytes} {action : Action}
    (same : action.SeesSame code other) :
    resolution.effect code action = resolution.effect other action := by
  cases action with
  | callProtection => exact CallProtection.effect_congr same.bytes
  | immutable target => exact Immutable.effect_congr same.length same.bytes
  | library target => exact Library.effect_congr same.length.1 same.length.2 same.bytes

/-- Two codes that get the same filling have the same bytes in it. -/
theorem seesSame_fill_both {onChain : Bytes} {populated other : PopulatedCode}
    {action : Action}
    {filling : Filling} (same : action.SeesSame populated.code other.code)
    (present : filling.span.Within onChain.length)
    (reaches : filling.span.start ≤ populated.code.length)
    (otherReaches : filling.span.start ≤ other.code.length) :
    action.SeesSame (populated.fill onChain filling).code
      (other.fill onChain filling).code := by
  have length := PopulatedCode.length_fill_code present reaches
  have otherLength := PopulatedCode.length_fill_code present otherReaches
  constructor
  · intro index covers
    by_cases filled : filling.span.Covers index
    · rw [PopulatedCode.getElem?_fill_code_of_covers present reaches filled,
        PopulatedCode.getElem?_fill_code_of_covers present otherReaches filled]
    · rw [PopulatedCode.getElem?_fill_code_of_not_covers present reaches filled,
        PopulatedCode.getElem?_fill_code_of_not_covers present otherReaches filled]
      exact same.bytes index covers
  · cases action with
    | callProtection => trivial
    | immutable target =>
        rw [Action.SeesSameLength, length, otherLength]
        exact congrArg (max · filling.span.stop) same.length
    | library target =>
        rw [Action.SeesSameLength, length, otherLength]
        exact ⟨Nat.le_trans same.length.1 (Nat.le_max_left _ _),
          Nat.le_trans same.length.2 (Nat.le_max_left _ _)⟩

/-- An action does not see what an action apart from it fills. -/
theorem seesSame_fill {onChain : Bytes} {populated : PopulatedCode}
    {action filler : Action}
    {filling : Filling} (fills : FillsWithin onChain populated.code filler filling)
    (apart : action.Apart filler) (self : action.SeesSame populated.code populated.code) :
    action.SeesSame populated.code (populated.fill onChain filling).code := by
  have length := PopulatedCode.length_fill_code fills.present fills.reaches
  constructor
  · intro index covers
    have outside : ¬ filling.span.Covers index :=
      fun filled => apart.areas index covers (fills.area index filled)
    exact (PopulatedCode.getElem?_fill_code_of_not_covers fills.present fills.reaches
      outside).symm
  · cases action with
    | callProtection => trivial
    | immutable target =>
        have inside := fills.inside apart.resolvers.symm
        exact (PopulatedCode.length_fill_code_of_within fills.present inside).symm
    | library target =>
        rw [Action.SeesSameLength, length]
        exact ⟨self.length.1, Nat.le_trans self.length.1 (Nat.le_max_left _ _)⟩

/-! ## What a list of actions does -/

/-- The fillings of the actions, one after the other. -/
def fillings (resolution : Resolution) :
    List Action → PopulatedCode → Except MatchError (List Filling)
  | [], _ => .ok []
  | action :: actions, populated =>
    match resolution.effect populated.code action with
    | .keep => fillings resolution actions populated
    | .fill filling =>
      (fillings resolution actions (populated.fill resolution.onChain filling)).map
        (filling :: ·)
    | .fail failure => .error failure

theorem foldlM_act (actions : List Action) (populated : PopulatedCode) :
    actions.foldlM resolution.act populated =
      (resolution.fillings actions populated).map
        (populated.fillAll resolution.onChain) := by
  induction actions generalizing populated with
  | nil => rfl
  | cons action actions induction =>
      rw [List.foldlM_cons, act, fillings]
      cases resolution.effect populated.code action with
      | keep => exact induction populated
      | fill filling =>
          refine (induction (populated.fill resolution.onChain filling)).trans ?_
          dsimp only
          cases resolution.fillings actions
            (populated.fill resolution.onChain filling) with
          | error failure => rfl
          | ok list => rfl
      | fail failure => rfl

theorem run_eq_fillings (resolution : Resolution) (populated : PopulatedCode)
    (resolver : Resolver) :
    resolution.run populated resolver =
      (resolution.fillings (resolution.actions resolver) populated).map
        (populated.fillAll resolution.onChain) := by
  rw [run_eq_actions, foldlM_act]

/-- Actions that see no difference between two codes fill the same in both. -/
theorem fillings_congr {actions : List Action} {populated other : PopulatedCode}
    (same : ∀ action ∈ actions, action.SeesSame populated.code other.code) :
    resolution.fillings actions populated = resolution.fillings actions other := by
  induction actions generalizing populated other with
  | nil => rfl
  | cons action actions induction =>
      rcases List.forall_mem_cons.mp same with ⟨here, later⟩
      rw [fillings, fillings, ← effect_congr here]
      cases fills : resolution.effect populated.code action with
      | keep => exact induction later
      | fail failure => rfl
      | fill filling =>
          have first := fillsWithin_of_effect fills
          have second := fillsWithin_of_effect ((effect_congr here).symm.trans fills)
          dsimp only
          rw [induction fun action member =>
            seesSame_fill_both (later action member)
              first.present first.reaches second.reaches]

/-- The fillings are those of some of the actions, in a code that they have filled so
far. -/
inductive Found (onChain : Bytes) (actions : List Action) :
    PopulatedCode → List Filling → Prop
  | done (populated : PopulatedCode) : Found onChain actions populated []
  | next {populated : PopulatedCode} {action : Action} {filling : Filling}
      {list : List Filling}
      (member : action ∈ actions)
      (fills : FillsWithin onChain populated.code action filling)
      (later : Found onChain actions (populated.fill onChain filling) list) :
      Found onChain actions populated (filling :: list)

namespace Found

variable {onChain : Bytes} {actions others : List Action} {populated : PopulatedCode}
  {list rest : List Filling}

theorem mono (found : Found onChain actions populated list)
    (members : ∀ action ∈ actions, action ∈ others) :
    Found onChain others populated list := by
  induction found with
  | done populated => exact .done populated
  | next member fills later induction => exact .next (members _ member) fills induction

theorem append (found : Found onChain actions populated list)
    (later : Found onChain actions (populated.fillAll onChain list) rest) :
    Found onChain actions populated (list ++ rest) := by
  induction found with
  | done populated => exact later
  | next member fills _ induction => exact .next member fills (induction later)

theorem resolver (found : Found onChain actions populated list) :
    ∀ filling ∈ list, ∃ action ∈ actions, filling.resolver = action.resolver := by
  induction found with
  | done populated => exact nofun
  | next member fills _ induction =>
      exact List.forall_mem_cons.mpr ⟨⟨_, member, fills.resolver⟩, induction⟩

/-- A filled byte is the one on chain, whichever filling has brought it. -/
theorem getElem? (found : Found onChain actions populated list) (index : Nat) :
    (populated.fillAll onChain list).code[index]? =
      if ∃ filling ∈ list, filling.span.Covers index then onChain[index]?
      else populated.code[index]? := by
  induction found with
  | done populated => rfl
  | @next populated action filling list member fills _ induction =>
      refine induction.trans ?_
      by_cases later : ∃ filling ∈ list, filling.span.Covers index
      · rw [if_pos later, if_pos (List.exists_mem_cons_of_exists later)]
      · rw [if_neg later]
        simp only [List.exists_mem_cons_iff, later, or_false]
        split
        · rename_i covers
          exact PopulatedCode.getElem?_fill_code_of_covers fills.present
            fills.reaches covers
        · rename_i outside
          exact PopulatedCode.getElem?_fill_code_of_not_covers fills.present
            fills.reaches outside

/-- An action sees nothing of what actions apart from it fill. -/
theorem seesSame (found : Found onChain actions populated list) {action : Action}
    (apart : ∀ other ∈ actions, action.Apart other)
    (self : action.SeesSame populated.code populated.code) :
    action.SeesSame populated.code (populated.fillAll onChain list).code := by
  induction found with
  | done populated => exact self
  | next member fills _ induction =>
      have same := seesSame_fill fills (apart _ member) self
      exact same.trans (induction same.right)

end Found

theorem found_of_fillings {actions : List Action} {populated : PopulatedCode}
    {list : List Filling}
    (ran : resolution.fillings actions populated = .ok list) :
    Found resolution.onChain actions populated list := by
  induction actions generalizing populated list with
  | nil =>
      cases ran
      exact .done populated
  | cons action actions induction =>
      have later : ∀ {state : PopulatedCode} {list : List Filling},
          resolution.fillings actions state = .ok list →
          Found resolution.onChain (action :: actions) state list :=
        fun ran => (induction ran).mono fun other member => List.mem_cons_of_mem _ member
      rw [fillings] at ran
      cases fills : resolution.effect populated.code action with
      | keep =>
          rw [fills] at ran
          exact later ran
      | fail failure =>
          rw [fills] at ran
          cases ran
      | fill filling =>
          rw [fills] at ran
          cases rest :
            resolution.fillings actions (populated.fill resolution.onChain filling) with
          | error failure =>
              simp only [rest] at ran
              cases ran
          | ok list =>
              simp only [rest] at ran
              cases ran
              exact .next List.mem_cons_self (fillsWithin_of_effect fills) (later rest)

end Resolution

end ContractCode
