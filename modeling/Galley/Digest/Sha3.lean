import Galley.Digest.Hex

/-!
# SHA3-256

The sponge over the Keccak-f[1600] permutation, with the state held as 25 little-endian
64-bit lanes indexed by `x + 5 y`. SHA3-256 absorbs 136-byte blocks, pads with the domain
bits `0x06 … 0x80`, and squeezes the first 32 bytes of the state.
-/

namespace Galley.Digest

def keccakRoundConstants : Array UInt64 := #[
  0x0000000000000001, 0x0000000000008082, 0x800000000000808A, 0x8000000080008000,
  0x000000000000808B, 0x0000000080000001, 0x8000000080008081, 0x8000000000008009,
  0x000000000000008A, 0x0000000000000088, 0x0000000080008009, 0x000000008000000A,
  0x000000008000808B, 0x800000000000008B, 0x8000000000008089, 0x8000000000008003,
  0x8000000000008002, 0x8000000000000080, 0x000000000000800A, 0x800000008000000A,
  0x8000000080008081, 0x8000000000008080, 0x0000000080000001, 0x8000000080008008]

def keccakRotations : Array UInt64 := #[
  0, 1, 62, 28, 27,
  36, 44, 6, 55, 20,
  3, 10, 43, 25, 39,
  41, 45, 15, 21, 8,
  18, 2, 61, 56, 14]

def rotl (w r : UInt64) : UInt64 := if r = 0 then w else (w <<< r) ||| (w >>> (64 - r))

/-- One round of Keccak-f[1600]: θ, ρ with π, χ and ι. -/
def keccakRound (a : Array UInt64) (rc : UInt64) : Array UInt64 := Id.run do
  let c := Array.ofFn (n := 5) fun x =>
    a[x.val]! ^^^ a[x.val + 5]! ^^^ a[x.val + 10]! ^^^ a[x.val + 15]! ^^^ a[x.val + 20]!
  let d := Array.ofFn (n := 5) fun x => c.getD ((x.val + 4) % 5) 0 ^^^ rotl (c.getD ((x.val + 1) % 5) 0) 1
  let a := Array.ofFn (n := 25) fun i => a[i.val]! ^^^ d[i.val % 5]!
  let mut b : Array UInt64 := Array.replicate 25 0
  for x in [0:5] do
    for y in [0:5] do
      b := b.set! (y + 5 * ((2 * x + 3 * y) % 5)) (rotl a[x + 5 * y]! keccakRotations[x + 5 * y]!)
  let a := Array.ofFn (n := 25) fun i =>
    let x := i.val % 5
    let y := i.val / 5
    b[i.val]! ^^^ ((~~~ b.getD ((x + 1) % 5 + 5 * y) 0) &&& b.getD ((x + 2) % 5 + 5 * y) 0)
  return a.set! 0 (a[0]! ^^^ rc)

/-- The permutation Keccak-f[1600]: its 24 rounds. -/
def keccakF (a : Array UInt64) : Array UInt64 :=
  keccakRoundConstants.foldl keccakRound a

def laneOf (bytes : List UInt8) : UInt64 :=
  bytes.foldr (fun b acc => (acc <<< 8) ||| b.toUInt64) 0

def laneBytes (w : UInt64) : List UInt8 :=
  (List.range 8).map fun i => (w >>> (8 * i).toUInt64).toUInt8

/-- The message padded for a sponge of `rate` bytes: the domain byte `0x06`, zeros, and the
final bit `0x80`, to a whole number of blocks. -/
def sha3Padded (rate : Nat) (msg : List UInt8) : List UInt8 :=
  let k := rate - msg.length % rate
  if k = 1 then msg ++ [0x86]
  else msg ++ [0x06] ++ List.replicate (k - 2) 0 ++ [0x80]

/-- Absorbs one block of `rate` bytes into the state and permutes. -/
def absorb (s : Array UInt64) (block : List UInt8) : Array UInt64 :=
  let lanes := (List.range (block.length / 8)).map fun i => laneOf ((block.drop (8 * i)).take 8)
  keccakF (Array.ofFn (n := 25) fun i => s[i.val]! ^^^ lanes.getD i.val 0)

def blocks (n : Nat) (xs : List UInt8) : List (List UInt8) :=
  (List.range ((xs.length + n - 1) / n)).map fun i => (xs.drop (n * i)).take n

/-- The SHA3-256 digest of a byte string. -/
def sha3_256 (msg : List UInt8) : List UInt8 :=
  let s := (blocks 136 (sha3Padded 136 msg)).foldl absorb (Array.replicate 25 0)
  ((s.toList.take 4).flatMap laneBytes)

def sha3Hex (s : String) : String := hex (sha3_256 s.toUTF8.toList)

end Galley.Digest
