import ClearSign.Field.Param
import ClearSign.Field.Scope

/-!
The calls that a call makes, read from its arguments: one for each blob of calldata, with a
destination and whatever else the field gives for it.
-/

namespace ClearSign.Param.NestedCall

/-- What the values of the field stand for. -/
structure Resolved where
  calldata : Captures
  callee : Captures
  chain : Option Captures
  selector : Option Captures
  amount : Option Captures
  spender : Option Captures

/-- As many captures as there are calls, or an objection. -/
def sized (scope : Scope) (size : Nat) (v : Value) : Except Error Captures := do
  let captures ← scope.resolve v
  if captures.length = size then return captures else throw .invalidValue

def sized? (scope : Scope) (size : Nat) : Option Value → Except Error (Option Captures)
  | none => .ok none
  | some v => some <$> sized scope size v

def resolve (p : NestedCall) (scope : Scope) : Except Error Resolved := do
  let calldata ← scope.resolve p.calldata
  let size := calldata.length
  let callee ← sized scope size p.callee
  let chain ← sized? scope size p.chain
  let selector ← sized? scope size p.selector
  let amount ← sized? scope size p.amount
  let spender ← sized? scope size p.spender
  return { calldata, callee, chain, selector, amount, spender }

/-- A blob as calldata. An empty one is a call without any; one without a selector of its own
starts with it. -/
def split (blob : Bytes) (selector : Option Bytes) : Except Error (Option Calldata) :=
  if blob.isEmpty then .ok none
  else
    match selector with
    | some selector => some <$> Calldata.ofBytes (Fixed.align 4 selector) blob
    | none =>
      if blob.length < 4 then .error .invalidValue
      else some <$> Calldata.ofBytes (Fixed.align 4 (blob.take 4)) (blob.drop 4)

/-- The call at one place. -/
def call (r : Resolved) (i : Nat) (blob : Capture) : Except Error NewCall := do
  let at? (captures : Option Captures) : Option Capture := captures.bind fun cs => cs[i]?
  let calldata ← split blob.bytes ((at? r.selector).map Capture.bytes)
  return {
    calldata
    sender := (at? r.spender).map Capture.toAddress
    target := r.callee[i]?.map Capture.toAddress
    amount := (at? r.amount).map fun c => Fixed.align 32 c.bytes
    chain := (at? r.chain).map Capture.toUInt64 }

/-- All calls, in the order of their blobs. -/
def calls (r : Resolved) : List (Except Error NewCall) := r.calldata.mapIdx (call r)

end ClearSign.Param.NestedCall
