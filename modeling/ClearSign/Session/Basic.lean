import ClearSign.Field.Format
import ClearSign.Session.Reassembly

/-!
One signing flow. The host starts a transaction, streams its arguments in and sends descriptors;
the session shows rows and says when all that was announced has been shown. A command that fails
wipes all of it but the challenge.
-/

namespace ClearSign

/-- The random number that the next binding must answer, and how many were drawn. -/
structure Challenge where
  value : UInt32
  draws : Nat
  deriving DecidableEq

def Challenge.roll (registry : Registry) (c : Challenge) : Challenge :=
  ⟨registry.draw c.draws, c.draws + 1⟩

/-- Who a session serves, what it is bound by and whom it trusts. -/
structure Device extends Host where
  verifier : Verifier

structure Session where
  review : Review
  cache : Cache
  challenge : Challenge
  reassembly : Reassembly
  /-- Arguments that came before the call they belong to. -/
  parked : Option Calldata
  deriving DecidableEq

namespace Session

/-- A session that holds nothing but a challenge. -/
def idle (challenge : Challenge) : Session :=
  ⟨Review.empty, Cache.empty, challenge, Reassembly.idle, none⟩

def start (device : Device) : Session := idle (Challenge.roll device.registry ⟨0, 0⟩)

/-- All that came is dropped; the challenge stays. -/
def wipe (s : Session) : Session :=
  { s with
    review := s.review.resetCalls.resetTable
    reassembly := s.reassembly.reset
    parked := none
    cache := s.cache.reset }

/-- No part is left out: what is wiped is as a session that nothing has come for. -/
theorem wipe_eq_idle (s : Session) : s.wipe = idle s.challenge := rfl

def rollChallenge (device : Device) (s : Session) : Session :=
  { s with challenge := s.challenge.roll device.registry }

def park (data : Calldata) (s : Session) : Session := { s with parked := some data }

/-- The call that is signed, and that all others come from. -/
structure Transaction where
  target : Option Address
  amount : Option Word
  chain : ChainId
  calldata : Option Calldata
  deriving DecidableEq

def onReview {α : Type} (a : Action Review α) : Action Session α :=
  a.onPart Session.review fun s r => { s with review := r }

/-- Opens the first call, sent by the device. The rows of a transaction start over with it. -/
def openRoot (device : Device) (t : Transaction) : Action Session Unit := do
  let call : NewCall := ⟨t.calldata, none, t.target, t.amount, some t.chain⟩
  let _ ← onReview (Review.openCall device.toHost call)
  onReview (Review.onCalls CallStack.selectRoot)
  if device.settings.mode = .transaction then
    modify fun s => { s with review := s.review.resetTable }

/-- Takes the parked arguments, if there are any. -/
def unpark : Action Session (Option Calldata) := do
  let parked := (← get).parked
  modify fun s => { s with parked := none }
  return parked

/-- Starts a transaction. Without arguments of its own it takes the parked ones. -/
def begin (device : Device) (t : Transaction) : Action Session Unit := do
  if (← get).review.calls.count ≠ 0 then throw .invalidState
  match t.calldata with
  | some _ => openRoot device t
  | none => openRoot device { t with calldata := ← unpark }

/-- Brings arguments of the first call, or parked ones as long as there is no call. -/
def append (bs : Bytes) : Action Session Unit := do
  let s ← get
  if s.review.calls.count = 0 then
    match s.parked with
    | some data => set { s with parked := some (← .ofExcept (data.append bs)) }
    | none => throw .invalidState
  else onReview (Review.onCalls (CallStack.appendRoot bs))

/-- All that was announced has been shown. In a transaction only the first call is left, complete;
of typed data no call is left, and something was shown. -/
def isReady (device : Device) (s : Session) : Bool :=
  match device.settings.mode with
  | .transaction =>
    s.review.calls.count == 1 && s.review.calls.isRoot && s.review.calls.isVerified
  | .typedData => s.review.calls.count == 0 && !s.review.table.isEmpty

/-- The descriptor of the first call. -/
def rootInfo (s : Session) : Option TransactionInfo := s.review.calls.root.bind Call.info

end Session

end ClearSign
