/-!
The classes of ASCII characters that names and numbers are made of.
-/

namespace ContractCode.Character

def isDigit (character : Char) : Bool := 48 ≤ character.toNat && character.toNat ≤ 57

def isLetter (character : Char) : Bool :=
  (65 ≤ character.toNat && character.toNat ≤ 90) ||
    (97 ≤ character.toNat && character.toNat ≤ 122)

def numberOfDigits (digits : List Char) : Nat :=
  digits.foldl (fun number digit => number * 10 + (digit.toNat - 48)) 0

end ContractCode.Character
