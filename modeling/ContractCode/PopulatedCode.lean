import ContractCode.Transformation
import ContractCode.RecordedValues

/-!
A copy of compiled code into which values from the chain are put, with the log of the
changes and the values. Every step takes such a state and returns the next one.
-/

namespace ContractCode

structure PopulatedCode where
  code : Bytes
  transformations : List Transformation := []
  values : RecordedValues := {}
deriving Repr, DecidableEq

namespace PopulatedCode

def ofCode (code : Bytes) : PopulatedCode := { code }

def log (populated : PopulatedCode) (transformation : Transformation) : PopulatedCode :=
  { populated with transformations := populated.transformations ++ [transformation] }

def overwrite (populated : PopulatedCode) (start : Nat) (value : Bytes) : PopulatedCode :=
  { populated with code := populated.code.overwrite start value }

def append (populated : PopulatedCode) (value : Bytes) : PopulatedCode :=
  { populated with code := populated.code ++ value }

def record (populated : PopulatedCode) (add : RecordedValues → RecordedValues) :
    PopulatedCode :=
  { populated with values := add populated.values }

end PopulatedCode

end ContractCode
