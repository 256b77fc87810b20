import ClearSign.Hash.Sha256
import ClearSign.Signature.Verifier
import ClearSign.Tlv.Schema

/-!
Structures that carry their signature as one of their records. What is signed is the digest of
all other records, in the order and the very bytes they came in.
-/

namespace ClearSign

structure Envelope (σ : Type) where
  content : σ
  /-- The records met so far, without the signature. -/
  signed : Bytes
  signature : Bytes
  deriving DecidableEq

namespace Envelope

open Tlv

variable {σ : Type}

/-- A rule for the content, applied inside the envelope. -/
def lift (rule : Rule σ) : Rule (Envelope σ) :=
  ⟨rule.tag, rule.repeats, fun r e => do return { e with content := ← rule.apply r e.content }⟩

/-- The content under its own rules, and the signature under a tag that none of them has. -/
def schema (signatureTag : UInt8) (rules : List (Rule σ)) : Schema (Envelope σ) where
  common r e :=
    .ok (if r.tag = signatureTag then e else { e with signed := e.signed ++ r.raw })
  rules :=
    .once signatureTag (fun r e => do return { e with signature := ← r.asBytes Signature.maxSize })
      :: rules.map lift

/-- Opens an envelope: its records, then its content as a whole, then its signature. -/
def parse (signatureTag : UInt8) (rules : List (Rule σ)) (blank : σ)
    (complete : σ → Tags → Except Error Unit) (usage : KeyUsage) (verifier : Verifier)
    (bs : Bytes) : Except Error (Envelope σ) := do
  let (e, tags) ← (schema signatureTag rules).parse ⟨blank, [], []⟩ bs
  complete e.content tags
  if verifier usage (Sha256.digest e.signed) e.signature then return e
  else throw .invalidSignature

end Envelope

end ClearSign
