/-
  HuffTrace.Keccak

  The Keccak-256 hash.  The state is 25 lanes of 64 bits; lane `x + 5 * y`
  stands in column `x` and row `y`.  Input is padded with `0x01 … 0x80`,
  absorbed in blocks of 136 bytes, and the first 32 bytes of the final state
  are the digest.
-/

namespace HuffTrace.Keccak

/-- The permuted state. -/
abbrev State := Vector UInt64 25

/-- The number of bytes that one block absorbs. -/
def rate : Nat := 136

/-- The constants of the 24 rounds. -/
def roundConstants : List UInt64 :=
  [0x0000000000000001, 0x0000000000008082, 0x800000000000808A, 0x8000000080008000,
   0x000000000000808B, 0x0000000080000001, 0x8000000080008081, 0x8000000000008009,
   0x000000000000008A, 0x0000000000000088, 0x0000000080008009, 0x000000008000000A,
   0x000000008000808B, 0x800000000000008B, 0x8000000000008089, 0x8000000000008003,
   0x8000000000008002, 0x8000000000000080, 0x000000000000800A, 0x800000008000000A,
   0x8000000080008081, 0x8000000000008080, 0x0000000080000001, 0x8000000080008008]

/-- How far each lane is rotated. -/
def rotations : Vector UInt64 25 :=
  #v[0, 1, 62, 28, 27, 36, 44, 6, 55, 20, 3, 10, 43, 25, 39, 41, 45, 15, 21, 8, 18, 2, 61, 56, 14]

/-- A lane rotated left. -/
def rotate (lane amount : UInt64) : UInt64 :=
  (lane <<< amount) ||| (lane >>> (64 - amount))

/-- The lane in column `x` and row `y`, both modulo five. -/
def lane (s : State) (x y : Nat) : UInt64 :=
  s[Fin.ofNat 25 (x % 5 + 5 * (y % 5))]

/-- The parity of the five lanes in a column. -/
def column (s : State) (x : Nat) : UInt64 :=
  lane s x 0 ^^^ lane s x 1 ^^^ lane s x 2 ^^^ lane s x 3 ^^^ lane s x 4

/-- Adds to each lane the parities of two neighbouring columns. -/
def mixColumns (s : State) : State :=
  let parity := Vector.ofFn fun x : Fin 5 => column s x
  let p (x : Nat) : UInt64 := parity[Fin.ofNat 5 x]
  s.mapFinIdx fun i l _ => l ^^^ p (i + 4) ^^^ rotate (p (i + 1)) 1

/-- Rotates each lane and moves it to its new place. -/
def moveLanes (s : State) : State :=
  Vector.ofFn fun i : Fin 25 =>
    let x := i.val % 5
    let y := i.val / 5
    rotate (lane s (x + 3 * y) x) rotations[Fin.ofNat 25 ((x + 3 * y) % 5 + 5 * x)]

/-- Combines each lane with the next two of its row. -/
def mixRows (s : State) : State :=
  s.mapFinIdx fun i l _ =>
    let x := i % 5
    let y := i / 5
    l ^^^ (~~~(lane s (x + 1) y) &&& lane s (x + 2) y)

/-- One round. -/
def round (s : State) (constant : UInt64) : State :=
  let t := mixRows (moveLanes (mixColumns s))
  t.set 0 (t[0] ^^^ constant)

/-- The permutation of the state. -/
def permute (s : State) : State :=
  roundConstants.foldl round s

/-- The lane that eight bytes write, least significant first. -/
def laneOfBytes (bytes : List UInt8) : UInt64 :=
  bytes.foldr (fun b acc => (acc <<< 8) ||| b.toUInt64) 0

/-- Adds a block of bytes to the state and permutes it. -/
def absorb (s : State) (block : List UInt8) : State :=
  permute (s.mapFinIdx fun i l _ => l ^^^ laneOfBytes ((block.drop (8 * i)).take 8))

/-- Absorbs a number of blocks. -/
def absorbBlocks (s : State) : Nat → List UInt8 → State
  | 0, _ => s
  | n + 1, bytes => absorbBlocks (absorb s (bytes.take rate)) n (bytes.drop rate)

/-- The input filled up to whole blocks. -/
def pad (bytes : List UInt8) : List UInt8 :=
  let gap := rate - bytes.length % rate
  if gap = 1 then bytes ++ [0x81]
  else bytes ++ 0x01 :: List.replicate (gap - 2) 0x00 ++ [0x80]

/-- The Keccak-256 digest of a byte string. -/
def digest (bytes : List UInt8) : Vector UInt8 32 :=
  let s := absorbBlocks (Vector.replicate 25 0) (bytes.length / rate + 1) (pad bytes)
  Vector.ofFn fun i : Fin 32 =>
    (s[Fin.ofNat 25 (i.val / 8)] >>> (8 * (i.val % 8)).toUInt64).toUInt8

end HuffTrace.Keccak
