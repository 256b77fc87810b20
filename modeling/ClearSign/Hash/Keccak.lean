import ClearSign.Bytes

/-!
The Keccak sponge over 1600 bits at a rate of 136 bytes, and its two digests of 32 bytes. They
differ only in the byte that opens the padding: 1 for the first Keccak, 6 for SHA3-256.
-/

namespace ClearSign.Keccak

/-- 25 lanes; the lane in column `x` and row `y` stands at place `x + 5 * y`. -/
abbrev Lanes := List UInt64

def lane (s : Lanes) (x y : Nat) : UInt64 := s.getD (x % 5 + 5 * (y % 5)) 0

/-- The state whose lane in column `x` and row `y` is `f x y`. -/
def build (f : Nat → Nat → UInt64) : Lanes := (List.range 25).map fun i => f (i % 5) (i / 5)

def rotate (w : UInt64) (n : Nat) : UInt64 :=
  if n = 0 then w else w <<< UInt64.ofNat n ||| w >>> UInt64.ofNat (64 - n)

def rotations : List Nat :=
  [0, 1, 62, 28, 27,
   36, 44, 6, 55, 20,
   3, 10, 43, 25, 39,
   41, 45, 15, 21, 8,
   18, 2, 61, 56, 14]

def roundConstants : List UInt64 :=
  [0x0000000000000001, 0x0000000000008082, 0x800000000000808a, 0x8000000080008000,
   0x000000000000808b, 0x0000000080000001, 0x8000000080008081, 0x8000000000008009,
   0x000000000000008a, 0x0000000000000088, 0x0000000080008009, 0x000000008000000a,
   0x000000008000808b, 0x800000000000008b, 0x8000000000008089, 0x8000000000008003,
   0x8000000000008002, 0x8000000000000080, 0x000000000000800a, 0x800000008000000a,
   0x8000000080008081, 0x8000000000008080, 0x0000000080000001, 0x8000000080008008]

/-- Each lane takes in the parity of the column before it and, turned by one, of the one after. -/
def theta (s : Lanes) : Lanes :=
  let parity := (List.range 5).map fun x => (List.range 5).foldl (fun p y => p ^^^ lane s x y) 0
  let effect := (List.range 5).map fun x =>
    parity.getD ((x + 4) % 5) 0 ^^^ rotate (parity.getD ((x + 1) % 5) 0) 1
  build fun x y => lane s x y ^^^ effect.getD x 0

/-- Each lane is turned by its own amount, and the lanes change places. -/
def rhoPi (s : Lanes) : Lanes :=
  let turned := List.zipWith rotate s rotations
  build fun x y => lane turned (x + 3 * y) x

/-- Each lane takes in the one after next where the next one is clear. -/
def chi (s : Lanes) : Lanes :=
  build fun x y => lane s x y ^^^ (~~~ lane s (x + 1) y &&& lane s (x + 2) y)

def round (s : Lanes) (constant : UInt64) : Lanes :=
  match chi (rhoPi (theta s)) with
  | [] => []
  | w :: rest => (w ^^^ constant) :: rest

def permute (s : Lanes) : Lanes := roundConstants.foldl round s

/-- Bytes taken in at a time. -/
def rate : Nat := 136

/-- Eight bytes as a lane, least significant first. -/
def laneOfBytes (bs : Bytes) : UInt64 := UInt64.ofNat (Bytes.toNat bs.reverse)

def bytesOfLane (w : UInt64) : Bytes := (Bytes.ofNat 8 w.toNat).reverse

/-- The state with a block of input mixed into its first lanes. -/
def mix (s : Lanes) (block : Bytes) : Lanes :=
  (List.range 25).map fun i => s.getD i 0 ^^^ laneOfBytes ((block.drop (8 * i)).take 8)

def absorb (s : Lanes) : (blocks : Nat) → Bytes → Lanes
  | 0, _ => s
  | blocks + 1, bs => absorb (permute (mix s (bs.take rate))) blocks (bs.drop rate)

/-- What fills up the last block: the opening byte, zeros, and the high bit of the last byte. -/
def padding (opening : UInt8) (length : Nat) : Bytes :=
  let room := rate - length % rate
  if room = 1 then [opening ||| 0x80] else opening :: List.replicate (room - 2) 0 ++ [0x80]

def digest (opening : UInt8) (bs : Bytes) : Hash :=
  let final := absorb (List.replicate 25 0) (bs.length / rate + 1)
    (bs ++ padding opening bs.length)
  Fixed.align 32 ((final.take 4).flatMap bytesOfLane)

def keccak256 (bs : Bytes) : Hash := digest 0x01 bs

def sha3 (bs : Bytes) : Hash := digest 0x06 bs

end ClearSign.Keccak
