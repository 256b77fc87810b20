import ClearSign.Bytes

/-!
SHA-256.
-/

namespace ClearSign.Sha256

/-- The eight working words. -/
structure Chain where
  a : UInt32
  b : UInt32
  c : UInt32
  d : UInt32
  e : UInt32
  f : UInt32
  g : UInt32
  h : UInt32
  deriving DecidableEq

def Chain.initial : Chain :=
  ⟨0x6a09e667, 0xbb67ae85, 0x3c6ef372, 0xa54ff53a, 0x510e527f, 0x9b05688c, 0x1f83d9ab, 0x5be0cd19⟩

def Chain.add (s t : Chain) : Chain :=
  ⟨s.a + t.a, s.b + t.b, s.c + t.c, s.d + t.d, s.e + t.e, s.f + t.f, s.g + t.g, s.h + t.h⟩

def Chain.words (s : Chain) : List UInt32 := [s.a, s.b, s.c, s.d, s.e, s.f, s.g, s.h]

def rotate (w n : UInt32) : UInt32 := w >>> n ||| w <<< (32 - n)

def roundConstants : List UInt32 :=
  [0x428a2f98, 0x71374491, 0xb5c0fbcf, 0xe9b5dba5, 0x3956c25b, 0x59f111f1, 0x923f82a4, 0xab1c5ed5,
   0xd807aa98, 0x12835b01, 0x243185be, 0x550c7dc3, 0x72be5d74, 0x80deb1fe, 0x9bdc06a7, 0xc19bf174,
   0xe49b69c1, 0xefbe4786, 0x0fc19dc6, 0x240ca1cc, 0x2de92c6f, 0x4a7484aa, 0x5cb0a9dc, 0x76f988da,
   0x983e5152, 0xa831c66d, 0xb00327c8, 0xbf597fc7, 0xc6e00bf3, 0xd5a79147, 0x06ca6351, 0x14292967,
   0x27b70a85, 0x2e1b2138, 0x4d2c6dfc, 0x53380d13, 0x650a7354, 0x766a0abb, 0x81c2c92e, 0x92722c85,
   0xa2bfe8a1, 0xa81a664b, 0xc24b8b70, 0xc76c51a3, 0xd192e819, 0xd6990624, 0xf40e3585, 0x106aa070,
   0x19a4c116, 0x1e376c08, 0x2748774c, 0x34b0bcb5, 0x391c0cb3, 0x4ed8aa4a, 0x5b9cca4f, 0x682e6ff3,
   0x748f82ee, 0x78a5636f, 0x84c87814, 0x8cc70208, 0x90befffa, 0xa4506ceb, 0xbef9a3f7, 0xc67178f2]

/-- The next word of the schedule, from the ones so far, latest first. -/
def nextWord (ws : List UInt32) : UInt32 :=
  let u := ws.getD 14 0
  let v := ws.getD 1 0
  ws.getD 15 0 + (rotate u 7 ^^^ rotate u 18 ^^^ u >>> 3) + ws.getD 6 0 +
    (rotate v 17 ^^^ rotate v 19 ^^^ v >>> 10)

/-- The words of the schedule, latest first, after `n` more of them. -/
def extend (ws : List UInt32) : Nat → List UInt32
  | 0 => ws
  | n + 1 => extend (nextWord ws :: ws) n

def schedule (block : Bytes) : List UInt32 :=
  let first := (List.range 16).map fun i =>
    UInt32.ofNat (Bytes.toNat ((block.drop (4 * i)).take 4))
  (extend first.reverse 48).reverse

def round (s : Chain) (input : UInt32 × UInt32) : Chain :=
  let t := s.h + (rotate s.e 6 ^^^ rotate s.e 11 ^^^ rotate s.e 25) +
    ((s.e &&& s.f) ^^^ (~~~ s.e &&& s.g)) + input.1 + input.2
  let u := (rotate s.a 2 ^^^ rotate s.a 13 ^^^ rotate s.a 22) +
    ((s.a &&& s.b) ^^^ (s.a &&& s.c) ^^^ (s.b &&& s.c))
  ⟨t + u, s.a, s.b, s.c, s.d + t, s.e, s.f, s.g⟩

def compress (s : Chain) (block : Bytes) : Chain :=
  s.add ((List.zip roundConstants (schedule block)).foldl round s)

def absorb (s : Chain) : (blocks : Nat) → Bytes → Chain
  | 0, _ => s
  | blocks + 1, bs => absorb (compress s (bs.take 64)) blocks (bs.drop 64)

/-- A set bit, zeros, and the length in bits as 64 bits, up to a whole block. -/
def padding (length : Nat) : Bytes :=
  0x80 :: List.replicate ((119 - length % 64) % 64) 0 ++ Bytes.ofNat 8 (8 * length)

def digest (bs : Bytes) : Hash :=
  let padded := bs ++ padding bs.length
  Fixed.align 32
    ((absorb Chain.initial (padded.length / 64) padded).words.flatMap fun w =>
      Bytes.ofNat 4 w.toNat)

end ClearSign.Sha256
