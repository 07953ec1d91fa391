import ContractCode.Proofs.ChunkBoundaries
import Mathlib.Logic.Function.Iterate

/-! # Chunks on chunks

A split cuts one chunk off the end of code, and does not look at what is left. All code
is bare code with some chunks on it, and as many splits as there are chunks lead to the
bare code. So the execution code of a split is without a chunk exactly if there was at
most one.
-/

namespace ContractCode.Auxdata

variable {style : Style} {code bare : Bytes} {chunks : List Bytes}

theorem Parts.AreOf.length_lt {parts : Parts} (are : parts.AreOf style code) :
    parts.execution.length < code.length := by
  have filled := List.length_pos_iff.mpr are.metadata
  rw [are.joined, List.length_append, List.length_append]
  omega

/-! ## Any number of chunks -/

/-- The code is bare code with these chunks behind it, the last one of the code first.
Bare code does not have the layout of the style. -/
inductive IsStacked (style : Style) (bare : Bytes) : Bytes → List Bytes → Prop
  | base (without : ∀ parts : Parts, ¬ parts.AreOf style bare) :
      IsStacked style bare bare []
  | above {code : Bytes} {chunks : List Bytes} {parts : Parts}
      (below : IsStacked style bare parts.execution chunks)
      (are : parts.AreOf style code) :
      IsStacked style bare code ((parts.metadata ++ parts.suffix) :: chunks)

theorem exists_isStacked (style : Style) (code : Bytes) :
    ∃ bare chunks, IsStacked style bare code chunks := by
  by_cases has : ∃ parts : Parts, parts.AreOf style code
  · rcases has with ⟨parts, are⟩
    have shorter := are.length_lt
    rcases exists_isStacked style parts.execution with ⟨bare, chunks, below⟩
    exact ⟨bare, _, .above below are⟩
  · exact ⟨code, [], .base fun parts are => has ⟨parts, are⟩⟩
termination_by code.length

/-- A split takes the last chunk off, if there is one. -/
theorem IsStacked.split (stacked : IsStacked style bare code chunks) :
    (split style code).chunk = chunks.head? ∧
      IsStacked style bare (executionCode style code) chunks.tail := by
  rw [executionCode]
  cases stacked with
  | base without =>
      rcases split_whole_or_areOf style code with whole | ⟨parts, are⟩
      · rw [whole]
        exact ⟨rfl, .base without⟩
      · exact absurd are (without parts)
  | above below are =>
      rw [split_of_areOf are]
      exact ⟨rfl, below⟩

theorem IsStacked.unique {other : Bytes} {otherChunks : List Bytes}
    (stacked : IsStacked style bare code chunks)
    (again : IsStacked style other code otherChunks) :
    other = bare ∧ otherChunks = chunks := by
  induction stacked generalizing otherChunks with
  | base without =>
      cases again with
      | base => exact ⟨rfl, rfl⟩
      | above below are => exact absurd are (without _)
  | above below are induction =>
      cases again with
      | base without => exact absurd are (without _)
      | above belowAgain areAgain =>
          cases areOf_unique are areAgain
          rcases induction belowAgain with ⟨rfl, rfl⟩
          exact ⟨rfl, rfl⟩

/-- So many splits take so many chunks off. -/
theorem IsStacked.iterate (stacked : IsStacked style bare code chunks) (count : Nat) :
    IsStacked style bare ((executionCode style)^[count] code) (chunks.drop count) := by
  induction count generalizing code chunks with
  | zero => exact stacked
  | succ count induction =>
      rw [Function.iterate_succ_apply, ← List.drop_tail]
      exact induction stacked.split.2

theorem IsStacked.eq_bare (stacked : IsStacked style bare code []) : code = bare := by
  cases stacked with
  | base without => rfl

/-- A split leaves code as it is exactly if there is no chunk on it. -/
theorem IsStacked.executionCode_eq_iff (stacked : IsStacked style bare code chunks) :
    executionCode style code = code ↔ chunks = [] := by
  have below := stacked.split.2
  constructor
  · intro same
    rw [same] at below
    have tail := (stacked.unique below).2
    cases chunks with
    | nil => rfl
    | cons chunk chunks => exact absurd tail.symm (List.cons_ne_self chunk chunks)
  · rintro rfl
    exact below.eq_bare.trans stacked.eq_bare.symm

/-! ## Splitting again -/

/-- All code is bare code with chunks on it, in one way, and each split takes the last
chunk off. So the execution code of a split has a chunk again, and is split further,
exactly if there were two. -/
theorem split_again (style : Style) (code : Bytes) :
    ∃ bare chunks, IsStacked style bare code chunks ∧
      (∀ other otherChunks, IsStacked style other code otherChunks →
        other = bare ∧ otherChunks = chunks) ∧
      (split style code).chunk = chunks.head? ∧
      (∀ count,
        IsStacked style bare ((executionCode style)^[count] code) (chunks.drop count)) ∧
      ((split style (executionCode style code)).chunk = none ↔ chunks.length ≤ 1) ∧
      (executionCode style (executionCode style code) = executionCode style code ↔
        chunks.length ≤ 1) := by
  rcases exists_isStacked style code with ⟨bare, chunks, stacked⟩
  have once := stacked.split
  have atMostOne : chunks.tail = [] ↔ chunks.length ≤ 1 := by
    rw [← List.length_eq_zero_iff, List.length_tail]
    omega
  refine ⟨bare, chunks, stacked, fun other otherChunks =>
    stacked.unique, once.1, stacked.iterate, ?_, ?_⟩
  · rw [once.2.split.1, List.head?_eq_none_iff]
    exact atMostOne
  · rw [once.2.executionCode_eq_iff]
    exact atMostOne

/-! The metadata of a compiler version twice, behind one byte of code. -/

def compilerChunk : Bytes := versionOfCompiler ++ [0, 10]

def doubledCode : Bytes := 0xFE :: (compilerChunk ++ compilerChunk)

theorem isStacked_doubledCode :
    IsStacked .solidity [0xFE] doubledCode [compilerChunk, compilerChunk] := by
  have decoded : Style.solidity.decodedSize? versionOfCompiler =
      some versionOfCompiler.length := by
    decide +kernel
  have suffix : IsSuffix .solidity versionOfCompiler.length [0, 10] :=
    (isSuffix_iff_of_hasSuffix rfl).mpr (by decide)
  have areOf : ∀ execution : Bytes, execution ≠ [] →
      Parts.AreOf .solidity (execution ++ compilerChunk)
        ⟨execution, versionOfCompiler, [0, 10]⟩ :=
    fun execution nonempty => ⟨rfl, nonempty, nofun, decoded, suffix⟩
  have bare : IsStacked .solidity [0xFE] [0xFE] [] := by
    apply IsStacked.base
    intro parts are
    have cut := congrArg Split.chunk (split_of_areOf are)
    exact absurd cut nofun
  have single : IsStacked .solidity [0xFE] (0xFE :: compilerChunk) [compilerChunk] :=
    .above bare (areOf [0xFE] nofun)
  exact .above single (areOf (0xFE :: compilerChunk) nofun)

theorem split_again_doubledCode :
    IsStacked .solidity [0xFE] doubledCode [compilerChunk, compilerChunk] ∧
      (split .solidity (executionCode .solidity doubledCode)).chunk ≠ none := by
  rcases split_again .solidity doubledCode with
    ⟨bare, chunks, _, unique, _, _, none_iff, _⟩
  rcases unique _ _ isStacked_doubledCode with ⟨rfl, rfl⟩
  exact ⟨isStacked_doubledCode, fun none => absurd (none_iff.mp none) (by decide)⟩

/-- Execution code may end with a chunk. -/
theorem not_split_again :
    ¬ ∀ style code, (split style (executionCode style code)).chunk = none := by
  intro all
  exact absurd (all .solidity doubledCode) (by decide +kernel)

end ContractCode.Auxdata
