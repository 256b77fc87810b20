import ClearSign.Path.Walk
import ClearSign.Review.Call
import ClearSign.Value.Basic

/-!
The byte strings that a value stands for, seen from the current call.
-/

namespace ClearSign

/-- A property of the call as bytes. A call without an amount sends none; the chain is the one
that its descriptor names. -/
def Property.bytes (p : Property) (c : Call) : Except Error Bytes :=
  match p with
  | .sender => .ok c.sender.bytes
  | .target =>
    match c.target with
    | some a => .ok a.bytes
    | none => .error .invalidState
  | .amount => .ok (c.amount.getD (Fixed.zero 32)).bytes
  | .chain =>
    match c.info with
    | some info => .ok (Bytes.ofNat 8 info.chain.toNat)
    | none => .error .invalidState

/-- A constant needs no call. -/
def Value.resolve (v : Value) (current : Option Call) : Except Error Captures :=
  match v.source with
  | .constant bs => .ok [Capture.whole bs]
  | .property p =>
    match current with
    | some c => do return [Capture.whole (← p.bytes c)]
    | none => .error .invalidState
  | .arguments path =>
    match current.bind Call.calldata with
    | some args => path.read args
    | none => .error .invalidState

end ClearSign
