import ContractCode.Bytes

/-!
Numbers written with the most significant byte first. The numbers below `bound width`
are the ones that a byte string of this width can tell, each of them by one string.
-/

namespace ContractCode.BigEndian

def decode (bytes : Bytes) : Nat :=
  bytes.foldl (fun number byte => number * 256 + byte.toNat) 0

/-- The first number that needs more than `width` bytes. -/
def bound : (width : Nat) → Nat
  | 0 => 1
  | width + 1 => bound width * 256

/-- The lowest `width` bytes of a number. -/
def encode : (width : Nat) → (number : Nat) → Bytes
  | 0, _ => []
  | width + 1, number => encode width (number / 256) ++ [UInt8.ofNat number]

@[simp] theorem decode_nil : decode [] = 0 := rfl

@[simp] theorem decode_concat (bytes : Bytes) (byte : UInt8) :
    decode (bytes ++ [byte]) = decode bytes * 256 + byte.toNat := by
  simp [decode]

@[simp] theorem length_encode (width number : Nat) :
    (encode width number).length = width := by
  induction width generalizing number with
  | zero => rfl
  | succ width induction => simp [encode, induction]

theorem decode_encode {width number : Nat} (small : number < bound width) :
    decode (encode width number) = number := by
  induction width generalizing number with
  | zero =>
    simp only [bound] at small
    simp only [encode, decode_nil]
    omega
  | succ width induction =>
    have quotient : number / 256 < bound width := by
      simp only [bound] at small
      omega
    simp only [encode, decode_concat, induction quotient, UInt8.toNat_ofNat']
    omega

end ContractCode.BigEndian
