/-!
Why a descriptor, a call or a command is refused, and what the host is told about it.
-/

namespace ClearSign

inductive Error
  | malformedTlv
  | unknownTag
  | duplicateTag
  | missingField
  | invalidValue
  | unsupportedVersion
  | invalidSignature
  | hashMismatch
  | contextMismatch
  | constraintRejected
  | notFound
  | outOfMemory
  | limitExceeded
  | invalidState
  | commandNotAllowed
  | wrongParameters
  | incompleteCalldata
  deriving DecidableEq, Repr

namespace Error

def code : Error → UInt8
  | malformedTlv => 0x01
  | unknownTag => 0x02
  | duplicateTag => 0x03
  | missingField => 0x04
  | invalidValue => 0x05
  | unsupportedVersion => 0x06
  | invalidSignature => 0x07
  | hashMismatch => 0x08
  | contextMismatch => 0x09
  | constraintRejected => 0x0a
  | notFound => 0x0b
  | outOfMemory => 0x0c
  | limitExceeded => 0x0d
  | invalidState => 0x0e
  | commandNotAllowed => 0x0f
  | wrongParameters => 0x10
  | incompleteCalldata => 0x11

/-- Every cause, in the order of its code. -/
def all : List Error :=
  [malformedTlv, unknownTag, duplicateTag, missingField, invalidValue, unsupportedVersion,
   invalidSignature, hashMismatch, contextMismatch, constraintRejected, notFound, outOfMemory,
   limitExceeded, invalidState, commandNotAllowed, wrongParameters, incompleteCalldata]

def ofCode? (n : UInt8) : Option Error := all.find? (·.code == n)

theorem ofCode?_code (e : Error) : ofCode? e.code = some e := by cases e <;> rfl

def message : Error → String
  | malformedTlv => "Malformed TLV"
  | unknownTag => "Unknown tag"
  | duplicateTag => "Duplicate tag"
  | missingField => "Missing field"
  | invalidValue => "Invalid value"
  | unsupportedVersion => "Unsupported version"
  | invalidSignature => "Invalid signature"
  | hashMismatch => "Hash mismatch"
  | contextMismatch => "Context mismatch"
  | constraintRejected => "Rejected by constraint"
  | notFound => "Not found"
  | outOfMemory => "Out of memory"
  | limitExceeded => "Limit exceeded"
  | invalidState => "Invalid state"
  | commandNotAllowed => "Command not allowed"
  | wrongParameters => "Wrong parameters"
  | incompleteCalldata => "Incomplete calldata"

/-- The descriptor is not what its signer vouched for. -/
def isAuthenticity (e : Error) : Bool :=
  e == invalidSignature || e == hashMismatch || e == contextMismatch

/-- A rule of the descriptor itself turned the call down. -/
def isRejection (e : Error) : Bool := e == constraintRejected

/-- A ceiling of the device was met. -/
def isResource (e : Error) : Bool := e == outOfMemory || e == limitExceeded

end Error

/-- What a command answers to the host. -/
abbrev StatusWord := UInt16

namespace StatusWord

def ok : StatusWord := 0x9000

def ofError : Error → StatusWord
  | .outOfMemory | .limitExceeded => 0x6a84
  | .commandNotAllowed | .invalidState => 0x6986
  | .wrongParameters => 0x6b00
  | _ => 0x6a80

/-- No refusal reads as success. -/
theorem ofError_ne_ok (e : Error) : ofError e ≠ ok := by cases e <;> decide

end StatusWord

end ClearSign
