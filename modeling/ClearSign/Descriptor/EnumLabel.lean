import ClearSign.Descriptor.Envelope
import ClearSign.Registry

/-!
The name of one value of an enumeration that a function of a contract takes.
-/

namespace ClearSign

structure EnumLabel where
  chain : ChainId
  contract : Address
  selector : Selector
  /-- Which enumeration of the function. -/
  id : UInt8
  value : UInt8
  name : String
  deriving DecidableEq

namespace EnumLabel

def blank : EnumLabel := ⟨0, Fixed.zero 20, Fixed.zero 4, 0, 0, ""⟩

def signatureTag : UInt8 := 0xff

def maxName : Nat := 20

def rules : List (Tlv.Rule EnumLabel) :=
  [.once 0x00 fun r l => do
     if (← r.asByte) = 1 then return l else throw .unsupportedVersion,
   .once 0x01 fun r l => do return { l with chain := ← r.asUInt64 },
   .once 0x02 fun r l => do return { l with contract := ← r.asAddress },
   .once 0x03 fun r l => do return { l with selector := ← r.asFixed 4 },
   .once 0x04 fun r l => do return { l with id := ← r.asByte },
   .once 0x05 fun r l => do return { l with value := ← r.asByte },
   .once 0x06 fun r l => do return { l with name := ← r.asName maxName }]

def required : List UInt8 := [0x00, 0x01, 0x02, 0x03, 0x04, 0x05, 0x06, signatureTag]

def parse (verifier : Verifier) (bs : Bytes) : Except Error EnumLabel := do
  let e ← Envelope.parse signatureTag rules blank (fun _ tags => tags.require required) .calldata
    verifier bs
  return e.content

end EnumLabel

end ClearSign
