import ContractCode.Bytes

/-!
The Keccak-256 digest. The permutation works on twenty-five 64-bit lanes, the lane of
column `x` and row `y` at index `x + 5 * y`; its steps are written entry by entry. A
message is padded to whole blocks of `rate` bytes, which are mixed into the lanes one
after the other.
-/

namespace ContractCode.Keccak

abbrev Lanes := Array UInt64

def lane (lanes : Lanes) (column row : Nat) : UInt64 :=
  lanes.getD (column % 5 + 5 * (row % 5)) 0

def build (entry : Nat → Nat → UInt64) : Lanes :=
  Array.ofFn fun index : Fin 25 => entry (index.val % 5) (index.val / 5)

def rotateLeft (value : UInt64) (amount : Nat) : UInt64 :=
  if amount % 64 = 0 then value
  else
    (value <<< UInt64.ofNat (amount % 64)) ||| (value >>> UInt64.ofNat (64 - amount % 64))

def rotations : Array Nat :=
  #[0, 1, 62, 28, 27, 36, 44, 6, 55, 20, 3, 10, 43, 25, 39, 41, 45, 15, 21, 8, 18,
    2, 61, 56, 14]

def roundConstants : List UInt64 :=
  [0x0000000000000001, 0x0000000000008082, 0x800000000000808A, 0x8000000080008000,
   0x000000000000808B, 0x0000000080000001, 0x8000000080008081, 0x8000000000008009,
   0x000000000000008A, 0x0000000000000088, 0x0000000080008009, 0x000000008000000A,
   0x000000008000808B, 0x800000000000008B, 0x8000000000008089, 0x8000000000008003,
   0x8000000000008002, 0x8000000000000080, 0x000000000000800A, 0x800000008000000A,
   0x8000000080008081, 0x8000000000008080, 0x0000000080000001, 0x8000000080008008]

def parity (lanes : Lanes) (column : Nat) : UInt64 :=
  lane lanes column 0 ^^^ lane lanes column 1 ^^^ lane lanes column 2 ^^^
    lane lanes column 3 ^^^ lane lanes column 4

/-- Every lane takes up the parities of the two columns beside its own. -/
def mixColumns (lanes : Lanes) : Lanes :=
  let parities := Array.ofFn fun column : Fin 5 => parity lanes column.val
  let change (column : Nat) : UInt64 :=
    parities.getD ((column + 4) % 5) 0 ^^^
      rotateLeft (parities.getD ((column + 1) % 5) 0) 1
  build fun column row => lane lanes column row ^^^ change column

/-- Every lane is rotated and moved: the lane at column `y` and row `2 x + 3 y` comes
from column `x` and row `y`. -/
def rotateAndMove (lanes : Lanes) : Lanes :=
  build fun column row =>
    let source := (column + 3 * row) % 5
    rotateLeft (lane lanes source column) (rotations.getD (source + 5 * column) 0)

/-- Every lane is combined with the next two of its row. -/
def combineRows (lanes : Lanes) : Lanes :=
  build fun column row =>
    lane lanes column row ^^^
      ((~~~ lane lanes (column + 1) row) &&& lane lanes (column + 2) row)

def round (lanes : Lanes) (constant : UInt64) : Lanes :=
  let combined := combineRows (rotateAndMove (mixColumns lanes))
  build fun column row =>
    if column = 0 ∧ row = 0 then lane combined 0 0 ^^^ constant
    else lane combined column row

def permute (lanes : Lanes) : Lanes := roundConstants.foldl round lanes

/-! ## Messages -/

/-- Bytes of the message that one permutation takes up. -/
def rate : Nat := 136

/-- The bytes that fill a message up to whole blocks: a first one bit and a last one
bit. -/
def padding (length : Nat) : Bytes :=
  let missing := rate - length % rate
  if missing = 1 then [0x81] else 0x01 :: List.replicate (missing - 2) 0 ++ [0x80]

/-- The number that eight bytes stand for, the least significant byte first. -/
def laneOfBytes (bytes : Bytes) : UInt64 :=
  bytes.foldr (fun byte value => (value <<< 8) ||| byte.toUInt64) 0

def bytesOfLane (value : UInt64) : Bytes :=
  (List.range 8).map fun index => (value >>> UInt64.ofNat (8 * index)).toUInt8

def absorbBlock (lanes : Lanes) (block : Bytes) : Lanes :=
  permute <| build fun column row =>
    let index := column + 5 * row
    if index < rate / 8 then
      lane lanes column row ^^^ laneOfBytes (block.slice ⟨8 * index, 8⟩)
    else lane lanes column row

def absorb (message : Bytes) : Lanes :=
  let padded := message ++ padding message.length
  (List.range (padded.length / rate)).foldl
    (fun lanes block => absorbBlock lanes (padded.slice ⟨rate * block, rate⟩))
    (build fun _ _ => 0)

def digest (message : Bytes) : Bytes :=
  let lanes := absorb message
  (List.range 4).flatMap fun column => bytesOfLane (lane lanes column 0)

theorem length_digest (message : Bytes) : (digest message).length = 32 := by
  simp only [digest, bytesOfLane, List.length_flatMap, List.length_map, List.length_range]
  rfl

end ContractCode.Keccak
