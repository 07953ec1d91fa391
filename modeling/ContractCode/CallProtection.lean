import ContractCode.PopulatedCode

/-!
The call protection of a library. Its runtime code starts by pushing its own address,
which is not known before it is deployed and is zero in compiled code.
-/

namespace ContractCode.CallProtection

/-- The instruction that pushes twenty bytes. -/
def pushAddress : UInt8 := 0x73

def addressSpan : Span := ⟨1, 20⟩

def address? (code : Bytes) : Option Bytes :=
  if code.head? = some pushAddress then code.slice? addressSpan else none

/-- Puts the deployed address in the place of a zero address. -/
def resolve (onChain : Bytes) (populated : PopulatedCode) : PopulatedCode :=
  match address? populated.code, address? onChain with
  | some placeholder, some address =>
    if placeholder.allZero ∧ placeholder ≠ address then
      populated.overwrite addressSpan.start address
        |>.log (.callProtection addressSpan.start)
        |>.record (·.addCallProtection address)
    else populated
  | _, _ => populated

end ContractCode.CallProtection
