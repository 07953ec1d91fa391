/-!
A character as it is written between single quotes in a message: control characters, the
backslash and the quote itself are escaped. Only ASCII characters are ever shown this
way.
-/

namespace ContractCode.CharacterLiteral

def backslash : Char := Char.ofNat 92

def quote : Char := Char.ofNat 39

/-- The digits of a number below 256 in base sixteen, without leading zeros. -/
def hexDigits (value : Nat) : List Char := Nat.toDigits 16 value

def body (character : Char) : List Char :=
  match character.toNat with
  | 0 => [backslash, '0']
  | 9 => [backslash, 't']
  | 10 => [backslash, 'n']
  | 13 => [backslash, 'r']
  | 39 => [backslash, quote]
  | 92 => [backslash, backslash]
  | code =>
    if code < 32 ∨ code = 127 then
      [backslash, 'u', Char.ofNat 123] ++ hexDigits code ++ [Char.ofNat 125]
    else [character]

def render (character : Char) : String :=
  String.ofList (quote :: body character ++ [quote])

end ContractCode.CharacterLiteral
