import ClearSign.Action
import ClearSign.Review.Call
import ClearSign.Settings

/-!
The calls under review, in slots. A call keeps its slot as long as it is there, and leaves a gap;
the slots in use, in order, are the calls that are live. One of them may be current.
-/

namespace ClearSign

structure CallStack where
  slots : List (Option Call)
  current : Option Nat
  /-- Calls that came in batches of more than one, in a counter that wraps around. -/
  batchTotal : UInt64
  /-- Calls in the batch that came last. -/
  batchSize : Nat
  deriving DecidableEq

namespace CallStack

def empty : CallStack := ⟨[], none, 0, 0⟩

/-- The calls that are live, in order. -/
def live (s : CallStack) : List Call := s.slots.filterMap id

def count (s : CallStack) : Nat := s.live.length

def call? (s : CallStack) (slot : Nat) : Option Call := s.slots[slot]?.join

/-- The slots in use, in order. -/
def places (s : CallStack) : List Nat :=
  (List.range s.slots.length).filter fun i => (s.call? i).isSome

/-- The slots in use below a slot, nearest first. -/
def placesBefore (s : CallStack) (slot : Nat) : List Nat := (s.places.filter (· < slot)).reverse

/-- The slots in use above a slot, nearest first. -/
def placesAfter (s : CallStack) (slot : Nat) : List Nat := s.places.filter (slot < ·)

def currentCall (s : CallStack) : Option Call := s.current.bind s.call?

def root (s : CallStack) : Option Call := s.live.head?

/-- The current call is the first of all. -/
def isRoot (s : CallStack) : Bool := s.current.isSome && s.current == s.places.head?

/-- The current call is held to the digest of its fields before it may leave. -/
def isHashed (mode : SigningMode) (s : CallStack) : Bool := mode == .typedData || !s.isRoot

def isVerified (s : CallStack) : Bool := s.currentCall.any Call.isVerified

/-- The current call is complete and may leave. -/
def isDone (mode : SigningMode) (s : CallStack) : Bool := s.isHashed mode && s.isVerified

/-- Changes the call in a slot, if there is one. -/
def modifyAt (s : CallStack) (slot : Nat) (f : Call → Call) : CallStack :=
  { s with slots := s.slots.modify slot (Option.map f) }

def modifyCurrent (s : CallStack) (f : Call → Call) : Except Error CallStack :=
  match s.current, s.currentCall with
  | some slot, some _ => .ok (s.modifyAt slot f)
  | _, _ => .error .invalidState

/-- Opens a call behind all others, in a slot that the answer names. Slots start over once none is
in use. -/
def push (settings : Settings) (registry : Registry) (new : NewCall) (s : CallStack) :
    Except Error (Nat × CallStack) := do
  if settings.maxCalls ≤ s.count then throw .outOfMemory
  let (sender, chain) ← match s.live.getLast? with
    | some last => pure (last.sender, last.chain)
    | none => pure (← registry.wallet, 0)
  let call : Call :=
    { info := none, calldata := new.calldata, sender := new.sender.getD sender,
      target := new.target, amount := new.amount, chain := new.chain.getD chain, absorbed := [] }
  let s := if s.live.isEmpty then { s with slots := [], current := none } else s
  return (s.slots.length, { s with slots := s.slots ++ [some call] })

/-- The current call leaves, and the one before it is current. -/
def pop (s : CallStack) : Except Error CallStack :=
  match s.current with
  | none => .error .invalidState
  | some slot =>
    .ok { s with slots := s.slots.set slot none, current := (s.placesBefore slot).head? }

def selectRoot (s : CallStack) : Except Error CallStack :=
  match s.places.head? with
  | none => .error .invalidState
  | some slot => .ok { s with current := some slot }

/-- The first call that a descriptor is about is current. -/
def select (cache : Cache) (contract : Address) (selector : Selector) (chain : ChainId)
    (s : CallStack) : Except Error CallStack :=
  match s.places.find? fun i => (s.call? i).any (·.answers cache contract selector chain) with
  | none => .error .contextMismatch
  | some slot => .ok { s with current := some slot }

/-- Takes in a field of the current call. -/
def absorb (field : Bytes) (s : CallStack) : Except Error CallStack :=
  s.modifyCurrent fun c => { c with absorbed := c.absorbed ++ field }

/-- The arguments of the first call, if it has any. -/
def rootCalldata? (s : CallStack) : Option Calldata := s.root.bind Call.calldata

def appendRoot (bs : Bytes) (s : CallStack) : Except Error CallStack :=
  match s.places.head?, s.rootCalldata? with
  | some slot, some data => do
    let data ← data.append bs
    return s.modifyAt slot fun c => { c with calldata := some data }
  | _, _ => .error .invalidState

/-- Counts a batch of calls that one field opens. -/
def announce (size : Nat) (s : CallStack) : CallStack :=
  { s with
    batchTotal := if 1 < size then s.batchTotal + UInt64.ofNat size else s.batchTotal
    batchSize := size }

/-- Every call is dropped, and batches are counted from nothing again. -/
def reset (s : CallStack) : CallStack :=
  { s with slots := [], current := none, batchTotal := 0, batchSize := 0 }

/-- Calls without arguments next to the current one, on the side that `around` lists. -/
def emptyRun (s : CallStack) (around : Nat → List Nat) : List Nat :=
  match s.current with
  | none => []
  | some slot => (around slot).takeWhile fun i => !(s.call? i).any (·.calldata.isSome)

/-- Calls without arguments right before the current one, nearest first. -/
def emptyBefore (s : CallStack) : List Nat := s.emptyRun s.placesBefore

/-- Calls without arguments right after the current one, nearest first. -/
def emptyAfter (s : CallStack) : List Nat := s.emptyRun s.placesAfter

end CallStack

end ClearSign
