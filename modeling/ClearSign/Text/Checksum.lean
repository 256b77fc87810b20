import ClearSign.Hash.Keccak
import ClearSign.Text.Decimal
import ClearSign.Text.Hex

/-!
Addresses with a checksum in the case of their letters: a letter is a capital where the digit at
its place in a digest of the address is 8 or more.
-/

namespace ClearSign.Checksum

/-- Chains whose number takes part in the checksum. -/
def chainsWithOwn : List UInt64 := [30, 31]

/-- The characters that are digested. -/
def digested (chain : UInt64) (hex : List Char) : List Char :=
  if chainsWithOwn.contains chain then Decimal.digits chain.toNat ++ '0' :: 'x' :: hex else hex

/-- The digest as hexadecimal digits. -/
def nibbles (digest : Hash) : List Nat :=
  digest.bytes.flatMap fun b => [b.toNat / 16, b.toNat % 16]

def capitalize (c : Char) (nibble : Nat) : Char :=
  if c.isAlpha && 8 ≤ nibble then c.toUpper else c

def chars (chain : UInt64) (address : Address) : List Char :=
  let hex := Hex.chars address.bytes
  let digest := Keccak.keccak256 ((digested chain hex).map fun c => UInt8.ofNat c.toNat)
  '0' :: 'x' :: List.zipWith capitalize hex (nibbles digest)

def text (chain : UInt64) (address : Address) : String := String.ofList (chars chain address)

end ClearSign.Checksum
