import ClearSign.Descriptor.Envelope
import ClearSign.Registry
import ClearSign.Text.Calendar

/-!
The descriptor of a call: which function of which contract on which chain, the digest of the
fields that describe it, and how the operation and its makers are called.
-/

namespace ClearSign

structure TransactionInfo where
  version : UInt8
  chain : ChainId
  contract : Address
  selector : Selector
  /-- The digest of all fields of the call. -/
  fieldsHash : Hash
  operation : String
  creatorName : Option String
  creatorLegalName : Option String
  creatorUrl : Option String
  contractName : Option String
  deployDate : Option String
  signature : Bytes
  deriving DecidableEq

/-- What the selector of a descriptor is held against as it arrives. -/
inductive SelectorCheck
  /-- Calls are there; the descriptor is matched with them later. -/
  | deferred
  | mustMatch (selector : Selector)
  /-- Neither calls nor arguments are there. -/
  | unavailable
  deriving DecidableEq

def SelectorCheck.check (c : SelectorCheck) (selector : Selector) : Except Error Unit :=
  match c with
  | deferred => .ok ()
  | mustMatch expected => if expected = selector then .ok () else .error .contextMismatch
  | unavailable => .error .invalidState

namespace TransactionInfo

def blank : TransactionInfo :=
  ⟨0, 0, Fixed.zero 20, Fixed.zero 4, Fixed.zero 32, "", none, none, none, none, none, []⟩

def signatureTag : UInt8 := 0xff

/-- Rules on the content; the check of the selector is among them. -/
def rules (check : SelectorCheck) : List (Tlv.Rule TransactionInfo) :=
  [.once 0x00 fun r t => do return { t with version := ← r.asByte },
   .once 0x01 fun r t => do return { t with chain := ← r.asUInt64 },
   .once 0x02 fun r t => do return { t with contract := ← r.asAddress },
   .once 0x03 fun r t => do
     let selector ← r.asFixed 4
     check.check selector
     return { t with selector := selector },
   .once 0x04 fun r t => do return { t with fieldsHash := ← r.asFixed 32 },
   .once 0x05 fun r t => .ok { t with operation := r.asText 30 },
   .once 0x06 fun r t => .ok { t with creatorName := some (r.asText 22) },
   .once 0x07 fun r t => .ok { t with creatorLegalName := some (r.asText 30) },
   .once 0x08 fun r t => .ok { t with creatorUrl := some (r.asText 26) },
   .once 0x09 fun r t => .ok { t with contractName := some (r.asText 30) },
   .once 0x0a fun r t => do
     return { t with deployDate := some (Civil.dateText (← r.asUInt32).toNat) }]

def required : List UInt8 := [0x01, 0x02, 0x03, 0x04, 0x05, signatureTag]

/-- A version must be there; only the first is known, and it says what else must be there. -/
def complete (t : TransactionInfo) (tags : Tlv.Tags) : Except Error Unit := do
  tags.require [0x00]
  if t.version = 1 then tags.require required else throw .unsupportedVersion

def parse (check : SelectorCheck) (verifier : Verifier) (bs : Bytes) :
    Except Error TransactionInfo := do
  let e ← Envelope.parse signatureTag (rules check) blank complete .calldata verifier bs
  return { e.content with signature := e.signature }

end TransactionInfo

end ClearSign
