import ClearSign.Calldata.Store
import ClearSign.Descriptor.Cache
import ClearSign.Descriptor.TransactionInfo
import ClearSign.Hash.Keccak

/-!
A call under review: its arguments as far as they have come, its descriptor, and the fields met so
far. A call without arguments never gets a descriptor.
-/

namespace ClearSign

structure Call where
  info : Option TransactionInfo
  calldata : Option Calldata
  sender : Address
  target : Option Address
  amount : Option Word
  chain : ChainId
  /-- The fields met so far, one behind the other. -/
  absorbed : Bytes
  deriving DecidableEq

namespace Call

/-- The target, which is the zero address where there is none. -/
def destination (c : Call) : Address := c.target.getD (Fixed.zero 20)

/-- The digest of fields that stand one behind the other. -/
def fieldsDigest (fields : Bytes) : Hash := Keccak.sha3 fields

/-- The fields met so far are all that the descriptor announced. -/
def isVerified (c : Call) : Bool :=
  match c.info with
  | some info => fieldsDigest c.absorbed == info.fieldsHash
  | none => false

/-- The function called, once all arguments have come. -/
def selector? (c : Call) : Option Selector :=
  c.calldata.bind fun data => data.selector?.toOption

/-- A descriptor for this contract, function and chain is about this call. -/
def answers (c : Call) (cache : Cache) (contract : Address) (selector : Selector)
    (chain : ChainId) : Bool :=
  cache.resolve chain c.destination selector == contract && c.selector? == some selector &&
    c.chain == chain

end Call

/-- A call as it is opened; what is missing is taken over from the call before it. -/
structure NewCall where
  calldata : Option Calldata
  sender : Option Address
  target : Option Address
  amount : Option Word
  chain : Option ChainId
  deriving DecidableEq

end ClearSign
