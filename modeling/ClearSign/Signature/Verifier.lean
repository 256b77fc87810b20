import ClearSign.Signature.Der

/-!
Who may sign what. A verifier answers whether a signature over a digest was made by a key that is
trusted for a use; the rest of the library asks nothing more of it.
-/

namespace ClearSign

/-- What a signing key is trusted for. -/
inductive KeyUsage
  | calldata
  | trustedName
  | network
  deriving DecidableEq, Repr

namespace KeyUsage

def code : KeyUsage → UInt8
  | calldata => 1
  | trustedName => 2
  | network => 3

def ofCode? : UInt8 → Option KeyUsage
  | 1 => some calldata
  | 2 => some trustedName
  | 3 => some network
  | _ => none

end KeyUsage

abbrev Verifier := KeyUsage → Hash → Bytes → Bool

namespace Signature

/-- Bytes that a signature may take up. -/
def minSize : Nat := 8

def maxSize : Nat := 72

/-- Public keys, each trusted for one use. -/
abbrev Keys := List (KeyUsage × Curve.Point)

/-- Valid for any one of the keys of the use. -/
def verifier (keys : Keys) : Verifier := fun usage digest signature =>
  if minSize ≤ signature.length ∧ signature.length ≤ maxSize then
    match Der.signature? signature with
    | some e =>
      decide e.Acceptable && keys.any fun k => k.1 == usage && e.verifies k.2 digest.bytes.toNat
    | none => false
  else false

end Signature

end ClearSign
