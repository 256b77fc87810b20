import ClearSign.Signature.Curve

/-!
The one accepted spelling of a pair of numbers as bytes: a sequence of two integers, each without
a sign and in the fewest bytes, and nothing behind it.
-/

namespace ClearSign.Der

/-- A number from the content of an integer: not empty, not negative, without a zero byte that
says nothing, and of at most 32 bytes. -/
def natural? : Bytes → Option Nat
  | [] => none
  | [b] => if b < 0x80 then some b.toNat else none
  | b :: c :: rest =>
    if b < 0x80 ∧ (b = 0 → 0x80 ≤ c) ∧ (Bytes.significant (b :: c :: rest)).length ≤ 32 then
      some (Bytes.toNat (b :: c :: rest))
    else none

/-- The number that an element marked as an integer holds, and what stands behind the element. -/
def element? : Bytes → Option (Nat × Bytes)
  | 0x02 :: length :: rest =>
    if length < 0x80 ∧ length.toNat ≤ rest.length then
      (natural? (rest.take length.toNat)).map fun n => (n, rest.drop length.toNat)
    else none
  | _ => none

/-- Only lengths of one byte can occur: a signature has at most 72 bytes. -/
def signature? : Bytes → Option Curve.Ecdsa
  | 0x30 :: length :: rest =>
    if length < 0x80 ∧ length.toNat = rest.length then
      match element? rest with
      | some (r, rest) =>
        match element? rest with
        | some (s, []) => some ⟨r, s⟩
        | _ => none
      | none => none
    else none
  | _ => none

end ClearSign.Der
