import ClearSign.Action
import ClearSign.Bytes

/-!
Payloads that come in chunks. The first chunk opens with the size of the payload as two bytes;
the payload is handed on once that many bytes have come behind them. An objection drops what has
come so far.
-/

namespace ClearSign

structure Pending where
  announced : Nat
  bytes : Bytes
  deriving DecidableEq

/-- The payload that is on its way, if one is. -/
structure Reassembly where
  pending : Option Pending
  deriving DecidableEq

namespace Reassembly

def idle : Reassembly := ⟨none⟩

/-- What has come of a payload is dropped. -/
def reset (r : Reassembly) : Reassembly := { r with pending := none }

/-- Where a chunk stands, by the parameter of its command. -/
def firstMark : UInt8 := 0x01

def nextMark : UInt8 := 0x00

/-- The payload a first chunk opens. -/
def begin (limit : Nat) (chunk : Bytes) : Except Error (Pending × Bytes) :=
  match chunk with
  | high :: low :: data =>
    let announced := Bytes.toNat [high, low]
    if announced ≤ limit then .ok (⟨announced, []⟩, data) else .error .outOfMemory
  | _ => .error .malformedTlv

/-- The payload that a chunk belongs to, and the bytes it brings. -/
def place (limit : Nat) (r : Reassembly) (mark : UInt8) (chunk : Bytes) :
    Except Error (Pending × Bytes) :=
  if mark = firstMark then
    if r.pending.isSome then .error .invalidState else begin limit chunk
  else if mark = nextMark then
    match r.pending with
    | some p => .ok (p, chunk)
    | none => .error .invalidState
  else .error .wrongParameters

/-- Takes a chunk in. The answer is the payload once it is whole. -/
def accept (limit : Nat) (r : Reassembly) (mark : UInt8) (chunk : Bytes) :
    Except Error (Option Bytes × Reassembly) := do
  let (p, data) ← place limit r mark chunk
  let bytes := p.bytes ++ data
  if p.announced < bytes.length then throw .invalidValue
  if bytes.length < p.announced then return (none, ⟨some { p with bytes := bytes }⟩)
  else return (some bytes, idle)

def feed (limit : Nat) (mark : UInt8) (chunk : Bytes) : Action Reassembly (Option Bytes) := do
  let r ← get
  match r.accept limit mark chunk with
  | .ok (payload, r) =>
    set r
    return payload
  | .error e =>
    set r.reset
    throw e

end Reassembly

end ClearSign
