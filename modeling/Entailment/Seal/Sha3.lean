/-! The hash function SHA3-256: a sponge over the Keccak permutation of 1600
bits, with blocks of 136 bytes and a digest of 32. -/
namespace Entailment.Sha3

/-- The lane of column `x` and row `y` stands at index `x + 5 * y`. -/
abbrev State := Vector UInt64 25

def lane (a : State) (x y : Nat) : UInt64 := a.get ⟨(x % 5 + 5 * (y % 5)), by omega⟩

/-- A state given lane by lane. -/
def ofLanes (f : Nat → Nat → UInt64) : State := Vector.ofFn fun i => f (i.val % 5) (i.val / 5)

def rotate (w : UInt64) (n : Nat) : UInt64 :=
  if n % 64 = 0 then w
  else w <<< (UInt64.ofNat (n % 64)) ||| w >>> (UInt64.ofNat (64 - n % 64))

/-- Rotation of each lane, in the order of the lanes. -/
def offsets : List Nat :=
  [0, 1, 62, 28, 27, 36, 44, 6, 55, 20, 3, 10, 43, 25, 39, 41, 45, 15, 21, 8, 18, 2, 61, 56, 14]

def roundConstants : List UInt64 :=
  [0x0000000000000001, 0x0000000000008082, 0x800000000000808A, 0x8000000080008000,
   0x000000000000808B, 0x0000000080000001, 0x8000000080008081, 0x8000000000008009,
   0x000000000000008A, 0x0000000000000088, 0x0000000080008009, 0x000000008000000A,
   0x000000008000808B, 0x800000000000008B, 0x8000000000008089, 0x8000000000008003,
   0x8000000000008002, 0x8000000000000080, 0x000000000000800A, 0x800000008000000A,
   0x8000000080008081, 0x8000000000008080, 0x0000000080000001, 0x8000000080008008]

/-- Adds to each lane the parities of two columns beside it. -/
def theta (a : State) : State :=
  let parity : Vector UInt64 5 := Vector.ofFn fun x =>
    lane a x 0 ^^^ lane a x 1 ^^^ lane a x 2 ^^^ lane a x 3 ^^^ lane a x 4
  let column (x : Nat) : UInt64 := parity.get ⟨x % 5, by omega⟩
  ofLanes fun x y => lane a x y ^^^ column (x + 4) ^^^ rotate (column (x + 1)) 1

/-- Rotates each lane and moves it to its new place. -/
def rhoPi (a : State) : State :=
  ofLanes fun x y =>
    let source := (x + 3 * y) % 5
    rotate (lane a source x) (offsets.getD (source + 5 * x) 0)

/-- The nonlinear step along each row. -/
def chi (a : State) : State :=
  ofLanes fun x y => lane a x y ^^^ (~~~lane a (x + 1) y &&& lane a (x + 2) y)

def iota (c : UInt64) (a : State) : State := a.set 0 (a.get 0 ^^^ c)

def permute (a : State) : State :=
  roundConstants.foldl (fun a c => iota c (chi (rhoPi (theta a)))) a

/-- Bytes in a block. -/
def rate : Nat := 136

/-- What is appended to a message of the given length to fill its last block. -/
def padding (length : Nat) : List UInt8 :=
  match rate - length % rate with
  | 1 => [0x86]
  | n => 0x06 :: (List.replicate (n - 2) 0 ++ [0x80])

/-- Eight bytes as a word, the lowest first. -/
def word (bs : List UInt8) : UInt64 :=
  bs.foldr (fun b w => w <<< 8 ||| b.toUInt64) 0

/-- The first bytes of a word, the lowest first. -/
def bytes (w : UInt64) : List UInt8 :=
  (List.range 8).map fun i => (w >>> (UInt64.ofNat (8 * i))).toUInt8

/-- Adds a block to the state and permutes. -/
def absorb (a : State) (block : List UInt8) : State :=
  permute (Vector.ofFn fun i => a.get i ^^^ word ((block.drop (8 * i.val)).take 8))

/-- Cuts off `n` blocks and absorbs them one after the other. -/
def absorbAll : Nat → State → List UInt8 → State
  | 0, a, _ => a
  | n + 1, a, bs => absorbAll n (absorb a (bs.take rate)) (bs.drop rate)

def digest (message : List UInt8) : List UInt8 :=
  let padded := message ++ padding message.length
  let a := absorbAll (padded.length / rate) (Vector.replicate 25 0) padded
  (List.range 4).flatMap fun x => bytes (lane a x 0)

end Entailment.Sha3
