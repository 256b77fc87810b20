/-!
Byte strings read as big-endian numbers, and byte strings of one length: addresses, function
selectors, words and digests. `length_alignRight` says that right-alignment always fills the
width it is given.
-/

namespace ClearSign

abbrev Bytes := List UInt8

namespace Bytes

/-- The unsigned number that the bytes spell, most significant first. -/
def toNat (bs : Bytes) : Nat := bs.foldl (fun n b => n * 256 + b.toNat) 0

/-- The low `width` bytes of a number, most significant first. -/
def ofNat : (width : Nat) → Nat → Bytes
  | 0, _ => []
  | width + 1, n => ofNat width (n / 256) ++ [UInt8.ofNat (n % 256)]

/-- The number that the bytes spell in two's complement; nothing spells zero. -/
def toInt (bs : Bytes) : Int :=
  match bs with
  | [] => 0
  | b :: _ => if b < 0x80 then bs.toNat else (bs.toNat : Int) - Nat.pow 256 bs.length

/-- The bytes right-aligned in a given width: padded with zeros in front, or cut to the last
ones. -/
def alignRight (width : Nat) (bs : Bytes) : Bytes :=
  List.replicate (width - bs.length) 0 ++ bs.drop (bs.length - width)

theorem length_alignRight (width : Nat) (bs : Bytes) : (bs.alignRight width).length = width := by
  simp only [alignRight, List.length_append, List.length_replicate, List.length_drop]
  omega

/-- The low 64 bits. -/
def toUInt64 (bs : Bytes) : UInt64 := UInt64.ofNat (bs.alignRight 8).toNat

/-- The bytes with their leading zeros dropped. -/
def significant (bs : Bytes) : Bytes := bs.dropWhile (· == 0)

end Bytes

/-- A byte string of exactly `n` bytes. -/
structure Fixed (n : Nat) where
  bytes : Bytes
  length_bytes : bytes.length = n
  deriving DecidableEq, Repr

namespace Fixed

variable {n : Nat}

theorem ext {a b : Fixed n} (h : a.bytes = b.bytes) : a = b := by
  cases a; cases b; cases h; rfl

def align (n : Nat) (bs : Bytes) : Fixed n := ⟨bs.alignRight n, Bytes.length_alignRight n bs⟩

def ofBytes? (n : Nat) (bs : Bytes) : Option (Fixed n) :=
  if h : bs.length = n then some ⟨bs, h⟩ else none

def zero (n : Nat) : Fixed n := ⟨List.replicate n 0, List.length_replicate⟩

end Fixed

abbrev Address := Fixed 20

/-- The first four bytes of a call: which function it is for. -/
abbrev Selector := Fixed 4

abbrev Word := Fixed 32

abbrev Hash := Fixed 32

end ClearSign
