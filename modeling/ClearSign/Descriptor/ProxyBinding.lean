import ClearSign.Descriptor.Envelope
import ClearSign.Registry

/-!
The binding of a proxy contract to the contract that runs its calls. It answers a challenge of the
device, so that it cannot be sent again later.
-/

namespace ClearSign

/-- Why calls to one contract run another. -/
inductive Delegation
  | proxy
  | issuedFromFactory
  | delegator
  deriving DecidableEq, Repr

namespace Delegation

def code : Delegation → UInt8
  | proxy => 0
  | issuedFromFactory => 1
  | delegator => 2

def ofCode : UInt8 → Except Error Delegation
  | 0 => .ok proxy
  | 1 => .ok issuedFromFactory
  | 2 => .ok delegator
  | _ => .error .invalidValue

end Delegation

structure ProxyBinding where
  chain : ChainId
  address : Address
  /-- The one function that is bound; without it all are. -/
  selector : Option Selector
  implementation : Address
  delegation : Delegation
  deriving DecidableEq

namespace ProxyBinding

/-- The contract that runs a call of a function at an address, if the binding says so. -/
def implementation? (b : ProxyBinding) (chain : ChainId) (address : Address)
    (selector : Selector) : Option Address :=
  if chain = b.chain ∧ address = b.address ∧ (b.selector = none ∨ b.selector = some selector) then
    some b.implementation
  else none

def blank : ProxyBinding := ⟨0, Fixed.zero 20, none, Fixed.zero 20, .proxy⟩

def signatureTag : UInt8 := 0x15

/-- The number that tells bindings from other signed structures. -/
def structureType : UInt8 := 0x26

def rules (challenge : UInt32) : List (Tlv.Rule ProxyBinding) :=
  [.once 0x01 fun r b => do
     if (← r.asByte) = structureType then return b else throw .invalidValue,
   .once 0x02 fun r b => do
     if (← r.asByte) = 1 then return b else throw .unsupportedVersion,
   .once 0x12 fun r b => do
     if (← r.asUInt32) = challenge then return b else throw .invalidValue,
   .once 0x22 fun r b => do return { b with address := ← r.asAddress },
   .once 0x23 fun r b => do return { b with chain := ← r.asUInt64 },
   .once 0x41 fun r b => do return { b with selector := some (← r.asFixed 4) },
   .once 0x42 fun r b => do return { b with implementation := ← r.asAddress },
   .once 0x43 fun r b => do return { b with delegation := ← Delegation.ofCode (← r.asByte) }]

def required : List UInt8 := [0x01, 0x02, 0x12, 0x22, 0x23, 0x42, 0x43, signatureTag]

def parse (challenge : UInt32) (verifier : Verifier) (bs : Bytes) :
    Except Error ProxyBinding := do
  let e ← Envelope.parse signatureTag (rules challenge) blank
    (fun _ tags => tags.require required) .trustedName verifier bs
  return e.content

end ProxyBinding

end ClearSign
